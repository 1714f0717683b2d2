import Mathlib
import LetterToSound.Container.Plan

/-!
# The bytes of written sections

A plan says what a section holds; what is written for it is a function of the plan and of the place
where the section starts. Strings stand behind their section in the order of their first use, so the
place of each is known from the values alone. A writer that succeeds has written just these bytes,
and every section has the size that its plan says.
-/

namespace LetterToSound

namespace Pool

/-- The bytes of strings, each with a zero byte behind it. -/
def bytes (strings : List Bytes) : Bytes := strings.flatMap (· ++ [0])

/-- Strings with one more, unless it is one of them. -/
def enter (strings : List Bytes) (s : Bytes) : List Bytes :=
  if s ∈ strings then strings else strings ++ [s]

/-- Where a string stands when strings follow one another from `start` on. -/
def place (start : Nat) (strings : List Bytes) (s : Bytes) : Nat :=
  start + (bytes (strings.takeWhile (· ≠ s))).length

@[simp] lemma bytes_nil : bytes [] = [] := rfl

@[simp] lemma bytes_append (xs ys : List Bytes) : bytes (xs ++ ys) = bytes xs ++ bytes ys := by
  simp [bytes]

@[simp] lemma bytes_cons (s : Bytes) (strings : List Bytes) :
    bytes (s :: strings) = s ++ 0 :: bytes strings := by
  simp [bytes]

lemma enter_of_mem {strings : List Bytes} {s : Bytes} (h : s ∈ strings) :
    enter strings s = strings := if_pos h

lemma enter_of_not_mem {strings : List Bytes} {s : Bytes} (h : s ∉ strings) :
    enter strings s = strings ++ [s] := if_neg h

lemma prefix_enter (strings : List Bytes) (s : Bytes) : strings <+: enter strings s := by
  by_cases h : s ∈ strings
  · rw [enter_of_mem h]
  · rw [enter_of_not_mem h]
    exact List.prefix_append strings [s]

lemma mem_enter_self (strings : List Bytes) (s : Bytes) : s ∈ enter strings s := by
  by_cases h : s ∈ strings
  · rwa [enter_of_mem h]
  · simp [enter_of_not_mem h]

/-- A string stands behind the strings before its first occurrence. -/
lemma place_eq (start : Nat) {before : List Bytes} (after : List Bytes) {s : Bytes}
    (h : s ∉ before) :
    place start (before ++ s :: after) s = start + (bytes before).length := by
  have htake : (before ++ s :: after).takeWhile (· ≠ s) = before := by
    rw [List.takeWhile_append_of_pos]
    · simp
    · intro t ht
      simpa using fun hts : t = s => h (hts ▸ ht)
  rw [place, htake]

/-- A string keeps its place when others are entered behind it. -/
lemma place_of_prefix {start : Nat} {strings more : List Bytes} {s : Bytes}
    (hp : strings <+: more) (hs : s ∈ strings) : place start more s = place start strings s := by
  obtain ⟨tail, rfl⟩ := hp
  obtain ⟨before, after, rfl, hbefore⟩ := List.eq_append_cons_of_mem hs
  rw [List.append_assoc, List.cons_append, place_eq _ _ hbefore, place_eq _ _ hbefore]

/-- A string and the zero byte behind it end no later than the strings do. -/
lemma place_lt (start : Nat) {strings : List Bytes} {s : Bytes} (hs : s ∈ strings) :
    place start strings s < start + (bytes strings).length := by
  obtain ⟨before, after, rfl, hbefore⟩ := List.eq_append_cons_of_mem hs
  rw [place_eq _ _ hbefore]
  simp only [bytes_append, bytes_cons, List.length_append, List.length_cons]
  omega

end Pool

namespace Datum

/-- The strings of a table behind a value. -/
def enter (strings : List Bytes) : Datum → List Bytes
  | pooled s => Pool.enter strings s
  | _ => strings

/-- The bytes of a value, when strings stand at their places. -/
def bytes (place : Bytes → Nat) : Datum → Bytes
  | u8 v => [v]
  | u16 v => LittleEndian.encode 2 v.toNat
  | u32 v => LittleEndian.encode 4 v.toNat
  | u64 v => LittleEndian.encode 8 v.toNat
  | single v => LittleEndian.encode 4 v.bits.toNat
  | fixed v => [(FixedPoint.encode v).1, (FixedPoint.encode v).2]
  | inline s => s ++ [0]
  | pooled s => LittleEndian.encode 4 (place s)

@[simp] lemma length_bytes (place : Bytes → Nat) (d : Datum) : (d.bytes place).length = d.size := by
  cases d <;> simp [bytes, size, Layout.stringReferenceSize]

lemma prefix_enter (strings : List Bytes) (d : Datum) : strings <+: d.enter strings := by
  cases d with
  | pooled s => exact Pool.prefix_enter strings s
  | _ => exact List.prefix_rfl

lemma prefix_foldl_enter (strings : List Bytes) (body : List Datum) :
    strings <+: body.foldl enter strings := by
  induction body generalizing strings with
  | nil => exact List.prefix_rfl
  | cons d rest ih => exact (prefix_enter strings d).trans (ih (d.enter strings))

/-- The bytes of a value stay the same when strings are entered behind its own. -/
lemma bytes_of_prefix (start : Nat) {strings more : List Bytes} {d : Datum}
    (h : d.enter strings <+: more) :
    d.bytes (Pool.place start more) = d.bytes (Pool.place start (d.enter strings)) := by
  cases d with
  | pooled s =>
    simp only [bytes, enter] at h ⊢
    rw [Pool.place_of_prefix h (Pool.mem_enter_self strings s)]
  | _ => rfl

end Datum

namespace SectionPlan

/-- The strings that the values of a section refer to, in the order of their first use. -/
def strings (plan : SectionPlan) : List Bytes := plan.body.foldl Datum.enter []

/-- Where the strings of a section stand when the section starts at `start`. -/
def poolStart (start : Nat) (plan : SectionPlan) : Nat :=
  start + plan.size.toNat + if plan.pooling then Layout.stringTableHeaderSize else 0

/-- The values of a section. -/
def values (start : Nat) (plan : SectionPlan) : Bytes :=
  plan.body.flatMap (Datum.bytes (Pool.place (plan.poolStart start) plan.strings))

/-- A string table whose first string stands at `start`. -/
def stringTable (start : Nat) (strings : List Bytes) : Bytes :=
  SectionTag.strings.bytes ++
    (LittleEndian.encode 4 (start + (Pool.bytes strings).length) ++ Pool.bytes strings)

/-- A section that starts at `start`, with its string table. -/
def bytes (start : Nat) (plan : SectionPlan) : Bytes :=
  plan.magic ++ (plan.values start ++
    if plan.pooling then stringTable (plan.poolStart start) plan.strings else [])

/-- A section whose plan says its size and has no excess. -/
structure Exact (plan : SectionPlan) : Prop where
  excess : plan.excess = none
  size : plan.magic.length + (plan.body.map Datum.size).sum = plan.size.toNat

instance (plan : SectionPlan) : Decidable plan.Exact :=
  decidable_of_iff (plan.excess = none ∧
      plan.magic.length + (plan.body.map Datum.size).sum = plan.size.toNat)
    ⟨fun h => ⟨h.1, h.2⟩, fun h => ⟨h.excess, h.size⟩⟩

/-- A section that is counted has a number of entries that its count can say. -/
lemma counted_of_exact {tag : SectionTag} {size : UInt32} {pooling : Bool} {count : Nat}
    {values : List Datum} (h : (counted tag size pooling count values).Exact) :
    counted tag size pooling count values =
        ⟨tag.bytes, size, pooling, .u16 (UInt16.ofNat count) :: values, none⟩ ∧
      count < UInt16.size := by
  have hexcess := h.excess
  unfold counted at hexcess ⊢
  split
  · rename_i hcount
    exact ⟨rfl, hcount⟩
  · rename_i hcount
    rw [if_neg hcount] at hexcess
    cases hexcess

/-- Sections one behind the other, the first one at `start`. -/
def allBytes (start : Nat) : List SectionPlan → Bytes
  | [] => []
  | plan :: rest => plan.bytes start ++ allBytes (start + (plan.bytes start).length) rest

lemma mem_foldl_enter {s : Bytes} {strings : List Bytes} {body : List Datum}
    (h : Datum.pooled s ∈ body) : s ∈ body.foldl Datum.enter strings := by
  induction body generalizing strings with
  | nil => cases h
  | cons d rest ih =>
    rcases List.mem_cons.mp h with rfl | h
    · exact (Datum.prefix_foldl_enter _ rest).subset (Pool.mem_enter_self strings s)
    · exact ih h

lemma mem_strings {s : Bytes} {plan : SectionPlan} (h : Datum.pooled s ∈ plan.body) :
    s ∈ plan.strings := mem_foldl_enter h

lemma length_values (start : Nat) (plan : SectionPlan) :
    (plan.values start).length = (plan.body.map Datum.size).sum := by
  simp [values, List.length_flatMap]

lemma length_stringTable (start : Nat) (strings : List Bytes) :
    (stringTable start strings).length =
      Layout.stringTableHeaderSize + (Pool.bytes strings).length := by
  simp only [stringTable, List.length_append, SectionTag.length_bytes, LittleEndian.length_encode,
    Layout.stringTableHeaderSize]
  omega

end SectionPlan

namespace Write

variable {α β : Type} {w w'' : Writer}

lemma bind_apply (x : Write α) (f : α → Write β) (w : Writer) :
    (x >>= f) w = match x w with
      | (.ok a, w') => f a w'
      | (.error e, w') => (.error e, w') := by
  change ExceptT.bindCont f (x w).1 (x w).2 = _
  cases x w with
  | mk result w' => cases result <;> rfl

/-- Steps that have succeeded have done so one after the other. -/
lemma exists_of_bind_eq_ok {x : Write α} {f : α → Write β} {b : β}
    (h : (x >>= f) w = (.ok b, w'')) : ∃ a w', x w = (.ok a, w') ∧ f a w' = (.ok b, w'') := by
  rw [bind_apply] at h
  split at h
  · rename_i a w' hx
    exact ⟨a, w', hx, h⟩
  · cases h

end Write

namespace Writer

variable {w w' : Writer}

/-- What a step of the writer leaves as it is when it only adds bytes to the sink. -/
structure Appends (w : Writer) (bytes : Bytes) (w' : Writer) : Prop where
  received : w'.sink.received.toList = w.sink.received.toList ++ bytes
  offset : w'.offset = w.offset
  pooling : w'.pooling = w.pooling
  pool : w'.pool = w.pool
  places : w'.places = w.places

namespace Appends

lemma refl (w : Writer) : Appends w [] w := ⟨by simp, rfl, rfl, rfl, rfl⟩

lemma trans {w w' w'' : Writer} {xs ys : Bytes} (h : Appends w xs w') (h' : Appends w' ys w'') :
    Appends w (xs ++ ys) w'' :=
  ⟨by rw [h'.received, h.received, List.append_assoc], h'.offset.trans h.offset,
    h'.pooling.trans h.pooling, h'.pool.trans h.pool, h'.places.trans h.places⟩

end Appends

lemma put_ok {bytes : Bytes} {u : Unit} (h : put bytes w = (.ok u, w')) : Appends w bytes w' := by
  unfold put at h
  split at h
  · cases h
  · cases h
    exact ⟨by simp [Sink.append], rfl, rfl, rfl, rfl⟩

lemma putU32_ok {v : UInt32} {u : Unit} (h : putU32 v w = (.ok u, w')) :
    Appends w (LittleEndian.encode 4 v.toNat) w' := put_ok h

lemma putString_ok {s : Bytes} {u : Unit} (h : putString s w = (.ok u, w')) :
    Appends w (s ++ [0]) w' := by
  obtain ⟨_, w₁, h₁, h⟩ := Write.exists_of_bind_eq_ok h
  exact (put_ok h₁).trans (put_ok h)

lemma putFixed_ok {v : Single} {u : Unit} (h : putFixed v w = (.ok u, w')) :
    Appends w [(FixedPoint.encode v).1, (FixedPoint.encode v).2] w' := by
  obtain ⟨_, w₁, h₁, h⟩ := Write.exists_of_bind_eq_ok h
  exact (put_ok h₁).trans (put_ok h)

lemma putStrings_ok {strings : List Bytes} {u : Unit} (h : putStrings strings w = (.ok u, w')) :
    Appends w (Pool.bytes strings) w' := by
  induction strings generalizing w with
  | nil =>
    cases h
    exact .refl _
  | cons s rest ih =>
    obtain ⟨_, w₁, h₁, h⟩ := Write.exists_of_bind_eq_ok h
    have := (putString_ok h₁).trans (ih h)
    simpa using this

lemma reserve_ok {size : Nat} {u : Unit} (h : reserve size w = (.ok u, w')) :
    w' = { w with offset := w.offset + size } ∧ w.offset + size < UInt32.size := by
  unfold reserve at h
  split at h
  · cases h
  · cases h
    exact ⟨rfl, by omega⟩

/-- While a section is written, its strings are to stand from `start` on. -/
structure Pools (start : Nat) (strings : List Bytes) (w : Writer) : Prop where
  pool : w.pool.reverse = strings
  offset : w.offset = start + (Pool.bytes strings).length
  fits : w.offset < UInt32.size
  places : ∀ s, w.places[s]? = if s ∈ strings then some (Pool.place start strings s) else none

lemma Pools.of_appends {start : Nat} {strings : List Bytes} {bytes : Bytes}
    (hw : Pools start strings w) (h : Appends w bytes w') : Pools start strings w' where
  pool := by rw [h.pool, hw.pool]
  offset := by rw [h.offset, hw.offset]
  fits := by rw [h.offset]; exact hw.fits
  places := by rw [h.places]; exact hw.places

/-- Entering a string that is not there yet puts it behind the others. -/
lemma enter_ok {start place : Nat} {strings : List Bytes} {s : Bytes}
    (hw : Pools start strings w) (hs : s ∉ strings) (h : enter s w = (.ok place, w')) :
    Pools start (strings ++ [s]) w' ∧ place = Pool.place start (strings ++ [s]) s ∧
      w'.sink = w.sink ∧ w'.pooling = w.pooling := by
  unfold enter at h
  split at h
  · cases h
  rename_i hfits
  cases h
  have hplace : w.offset = Pool.place start (strings ++ [s]) s := by
    rw [Pool.place_eq _ _ hs, hw.offset]
  refine ⟨⟨by simp [hw.pool], ?_, by simp only; omega, ?_⟩, hplace, rfl, rfl⟩
  · simp only [hw.offset, Pool.bytes_append, Pool.bytes_cons, Pool.bytes_nil, List.length_append,
      List.length_cons, List.length_nil]
    omega
  · intro t
    rw [Std.HashMap.getElem?_insert, hw.places t]
    by_cases ht : s = t
    · subst ht
      simp [hplace]
    · by_cases hmem : t ∈ strings
      · simp [ht, hmem, Pool.place_of_prefix (List.prefix_append strings [s]) hmem]
      · simp [ht, hmem, Ne.symm ht]

/-- A reference is the place of its string, which stands in the table from then on. -/
lemma putReference_ok {start place : Nat} {strings : List Bytes} {s : Bytes}
    (hw : Pools start strings w) (h : putReference s w = (.ok place, w')) :
    Pools start (Pool.enter strings s) w' ∧
      w'.sink.received.toList = w.sink.received.toList ++
        LittleEndian.encode 4 (Pool.place start (Pool.enter strings s) s) ∧
      w'.pooling = w.pooling ∧ (w.pooling = false → s ∈ strings) := by
  unfold putReference at h
  obtain ⟨_, _, hget, h⟩ := Write.exists_of_bind_eq_ok h
  cases hget
  rw [hw.places s] at h
  by_cases hs : s ∈ strings
  · rw [if_pos hs] at h
    obtain ⟨_, w₁, hput, h⟩ := Write.exists_of_bind_eq_ok h
    cases h
    have hlt : Pool.place start strings s < UInt32.size := by
      have := Pool.place_lt start hs
      have := hw.offset
      have := hw.fits
      omega
    have happ := putU32_ok hput
    rw [UInt32.toNat_ofNat_of_lt' hlt] at happ
    rw [Pool.enter_of_mem hs]
    exact ⟨hw.of_appends happ, happ.received, happ.pooling, fun _ => hs⟩
  · rw [if_neg hs] at h
    obtain ⟨_, _, hget, h⟩ := Write.exists_of_bind_eq_ok h
    cases hget
    cases hpooling : w.pooling with
    | false =>
      simp only [hpooling, Bool.not_false, if_true] at h
      obtain ⟨_, _, hthrow, _⟩ := Write.exists_of_bind_eq_ok h
      cases hthrow
    | true =>
      simp only [hpooling, Bool.not_true, Bool.false_eq_true, if_false] at h
      obtain ⟨_, w₁, henter, h⟩ := Write.exists_of_bind_eq_ok h
      obtain ⟨_, w₂, hput, h⟩ := Write.exists_of_bind_eq_ok h
      cases h
      obtain ⟨hw₁, rfl, hsink, hsame⟩ := enter_ok hw hs henter
      have hlt : Pool.place start (strings ++ [s]) s < UInt32.size := by
        have := Pool.place_lt start (List.mem_append_right strings (List.mem_singleton_self s))
        have := hw₁.offset
        have := hw₁.fits
        omega
      have happ := putU32_ok hput
      rw [UInt32.toNat_ofNat_of_lt' hlt] at happ
      rw [Pool.enter_of_not_mem hs]
      refine ⟨hw₁.of_appends happ, by rw [happ.received, hsink], ?_, fun h => by simp at h⟩
      rw [happ.pooling, hsame, hpooling]

/-- A value is written as its bytes, and its string stands in the table from then on. -/
lemma write_ok {start : Nat} {strings : List Bytes} {d : Datum} {place : Option Nat}
    (hw : Pools start strings w) (h : d.write w = (.ok place, w')) :
    Pools start (d.enter strings) w' ∧
      w'.sink.received.toList = w.sink.received.toList ++
        d.bytes (Pool.place start (d.enter strings)) ∧
      w'.pooling = w.pooling ∧ (w.pooling = false → d.enter strings = strings) := by
  cases d with
  | pooled s =>
    obtain ⟨place, w₁, hput, h⟩ := Write.exists_of_bind_eq_ok h
    cases h
    obtain ⟨hw₁, hreceived, hpooling, hmem⟩ := putReference_ok hw hput
    exact ⟨hw₁, hreceived, hpooling, fun hp => Pool.enter_of_mem (hmem hp)⟩
  | _ =>
    obtain ⟨_, w₁, hput, h⟩ := Write.exists_of_bind_eq_ok h
    cases h
    have happ := by
      first
      | exact putFixed_ok hput
      | exact putString_ok hput
      | exact put_ok hput
    exact ⟨hw.of_appends happ, happ.received, happ.pooling, fun _ => rfl⟩

/-- Values are written one behind the other. -/
lemma putAll_ok {start : Nat} {strings : List Bytes} {body : List Datum} {u : Unit}
    (hw : Pools start strings w) (h : putAll body w = (.ok u, w')) :
    Pools start (body.foldl Datum.enter strings) w' ∧
      w'.sink.received.toList = w.sink.received.toList ++
        body.flatMap (Datum.bytes (Pool.place start (body.foldl Datum.enter strings))) ∧
      w'.pooling = w.pooling ∧
      (w.pooling = false → body.foldl Datum.enter strings = strings) := by
  induction body generalizing w strings with
  | nil =>
    cases h
    exact ⟨hw, by simp, rfl, fun _ => rfl⟩
  | cons d rest ih =>
    obtain ⟨_, w₁, hdiscard, h⟩ := Write.exists_of_bind_eq_ok h
    obtain ⟨_, w₂, hwrite, hdiscard⟩ := Write.exists_of_bind_eq_ok hdiscard
    cases hdiscard
    obtain ⟨hw₁, hreceived, hpooling, hsame⟩ := write_ok hw hwrite
    obtain ⟨hw₂, hreceived', hpooling', hsame'⟩ := ih hw₁ h
    refine ⟨hw₂, ?_, hpooling'.trans hpooling, fun hp => ?_⟩
    · have hbytes := Datum.bytes_of_prefix start (Datum.prefix_foldl_enter (d.enter strings) rest)
      rw [hreceived', hreceived, List.foldl_cons, List.flatMap_cons, hbytes, List.append_assoc]
    · rw [List.foldl_cons, hsame' (hpooling.trans hp), hsame hp]

lemma beginSection_ok {magic : Bytes} {size : UInt32} {pooling : Bool} {u : Unit}
    (h : beginSection magic size pooling w = (.ok u, w')) :
    w'.sink.received.toList = w.sink.received.toList ++ magic ∧
      w'.offset = w.offset + size.toNat +
        (if pooling then Layout.stringTableHeaderSize else 0) ∧
      w'.offset < UInt32.size ∧ w'.pooling = pooling ∧ w'.pool = w.pool ∧ w'.places = w.places := by
  unfold beginSection at h
  obtain ⟨_, w₁, hreserve, h⟩ := Write.exists_of_bind_eq_ok h
  obtain ⟨rfl, hfits⟩ := reserve_ok hreserve
  cases pooling with
  | false =>
    obtain ⟨_, _, hmodify, h⟩ := Write.exists_of_bind_eq_ok h
    cases hmodify
    have happ := put_ok h
    exact ⟨happ.received, happ.offset, by rw [happ.offset]; exact hfits, happ.pooling, happ.pool,
      happ.places⟩
  | true =>
    obtain ⟨_, w₂, hreserve', h⟩ := Write.exists_of_bind_eq_ok h
    obtain ⟨rfl, hfits'⟩ := reserve_ok hreserve'
    obtain ⟨_, _, hmodify, h⟩ := Write.exists_of_bind_eq_ok h
    cases hmodify
    have happ := put_ok h
    exact ⟨happ.received, happ.offset, by rw [happ.offset]; exact hfits', happ.pooling, happ.pool,
      happ.places⟩

/-- Between sections nothing is waiting to be written, and the offset is that of the end. -/
structure Ready (w : Writer) : Prop where
  pool : w.pool = []
  places : ∀ s : Bytes, w.places[s]? = none
  written : w.written = w.offset
  fits : w.offset < UInt32.size

lemma ready_empty (limit : Option Nat) : (empty limit).Ready :=
  ⟨rfl, fun s => by simp [empty], rfl, Nat.zero_lt_succ _⟩

lemma putPool_ok {start : Nat} {strings : List Bytes} {u : Unit} (hw : Pools start strings w)
    (h : putPool w = (.ok u, w')) :
    w'.sink.received.toList = w.sink.received.toList ++ SectionPlan.stringTable start strings ∧
      w'.offset = w.offset ∧ w'.pool = [] ∧ ∀ s : Bytes, w'.places[s]? = none := by
  unfold putPool at h
  obtain ⟨_, w₁, htag, h⟩ := Write.exists_of_bind_eq_ok h
  obtain ⟨_, _, hget, h⟩ := Write.exists_of_bind_eq_ok h
  cases hget
  obtain ⟨_, w₂, hoffset, h⟩ := Write.exists_of_bind_eq_ok h
  obtain ⟨_, w₃, htake, h⟩ := Write.exists_of_bind_eq_ok h
  cases htake
  obtain ⟨_, w₄, hstrings, h⟩ := Write.exists_of_bind_eq_ok h
  cases h
  have happ := (put_ok htag).trans (putU32_ok hoffset)
  have happ' := putStrings_ok hstrings
  have hword : (UInt32.ofNat w₁.offset).toNat = start + (Pool.bytes strings).length := by
    rw [(put_ok htag).offset, ← hw.offset]
    exact UInt32.toNat_ofNat_of_lt' hw.fits
  have hpool : w₂.pool.reverse = strings := by rw [happ.pool, hw.pool]
  refine ⟨?_, happ'.offset.trans happ.offset, happ'.pool, fun s => by simp⟩
  rw [happ'.received, happ.received, hword, hpool]
  simp [SectionPlan.stringTable]

lemma endSection_ok {start : Nat} {strings : List Bytes} {u : Unit} (hw : Pools start strings w)
    (hempty : w.pooling = false → strings = []) (h : endSection w = (.ok u, w')) :
    w'.Ready ∧ w'.offset = w.offset ∧ w'.sink.received.toList = w.sink.received.toList ++
      if w.pooling then SectionPlan.stringTable start strings else [] := by
  unfold endSection at h
  obtain ⟨_, _, hget, h⟩ := Write.exists_of_bind_eq_ok h
  cases hget
  have hcheck {v v' : Writer} (hv : checkSize v = (.ok u, v')) : v' = v ∧ v.written = v.offset := by
    unfold checkSize at hv
    split at hv
    · cases hv
      exact ⟨rfl, by assumption⟩
    · cases hv
  cases hpooling : w.pooling with
  | false =>
    rw [hpooling] at h
    obtain ⟨rfl, hwritten⟩ := hcheck h
    obtain rfl := hempty hpooling
    exact ⟨⟨by simpa using hw.pool, by simpa using hw.places, hwritten, hw.fits⟩, rfl, by simp⟩
  | true =>
    rw [hpooling] at h
    obtain ⟨_, w₁, hput, h⟩ := Write.exists_of_bind_eq_ok h
    obtain ⟨rfl, hwritten⟩ := hcheck h
    obtain ⟨hreceived, hoffset, hpool, hplaces⟩ := putPool_ok hw hput
    exact ⟨⟨hpool, hplaces, hwritten, by rw [hoffset]; exact hw.fits⟩, hoffset,
      by simpa using hreceived⟩

/-- The strings of a section that has been begun are to stand behind its values. -/
lemma pools_of_beginSection {plan : SectionPlan} {u : Unit} (hw : w.Ready)
    (h : beginSection plan.magic plan.size plan.pooling w = (.ok u, w')) :
    Pools (plan.poolStart w.written) [] w' := by
  obtain ⟨-, hoffset, hfits, -, hpool, hplaces⟩ := beginSection_ok h
  exact ⟨by simp [hpool, hw.pool], by simp [hoffset, SectionPlan.poolStart, hw.written], hfits,
    fun s => by simp [hplaces, hw.places]⟩

/-- A section that has been written has the bytes and the size that its plan says. -/
theorem putSection_ok {plan : SectionPlan} (hw : w.Ready)
    (h : putSection plan w = (.ok none, w')) :
    plan.Exact ∧ w'.Ready ∧
      w'.sink.received.toList = w.sink.received.toList ++ plan.bytes w.written := by
  unfold putSection at h
  obtain ⟨_, w₁, hbegin, h⟩ := Write.exists_of_bind_eq_ok h
  obtain ⟨_, w₂, hbody, h⟩ := Write.exists_of_bind_eq_ok h
  obtain ⟨hreceived, -, -, hpooling, -⟩ := beginSection_ok hbegin
  have hw₁ := pools_of_beginSection hw hbegin
  obtain ⟨hw₂, hreceived', hpooling', hsame⟩ := putAll_ok hw₁ hbody
  cases hexcess : plan.excess with
  | some excess =>
    rw [hexcess] at h
    cases h
  | none =>
    rw [hexcess] at h
    obtain ⟨_, w₃, hend, h⟩ := Write.exists_of_bind_eq_ok h
    cases h
    have hempty (hp : plan.pooling = false) : plan.strings = [] := hsame (hpooling.trans hp)
    obtain ⟨hready, hoffset', hreceived''⟩ :=
      endSection_ok hw₂ (fun hp => hsame (hpooling' ▸ hp)) hend
    rw [hpooling', hpooling] at hreceived''
    have hbytes : w'.sink.received.toList = w.sink.received.toList ++ plan.bytes w.written := by
      rw [hreceived'', hreceived', hreceived]
      simp only [SectionPlan.bytes, SectionPlan.values, SectionPlan.strings, List.append_assoc]
    refine ⟨⟨hexcess, ?_⟩, hready, hbytes⟩
    -- what has been written ends where the offset was led by the size of the plan
    have hlength := congrArg List.length hbytes
    have hend : w'.written = w.written + plan.size.toNat +
        (if plan.pooling then Layout.stringTableHeaderSize else 0) +
        (Pool.bytes plan.strings).length := by
      rw [hready.written, hoffset', hw₂.offset]
      rfl
    simp only [written, List.length_append, Array.length_toList, SectionPlan.bytes,
      SectionPlan.length_values] at hlength hend
    cases hp : plan.pooling with
    | false =>
      simp only [hp, hempty hp, Pool.bytes_nil, List.length_nil, Bool.false_eq_true, if_false]
        at hlength hend
      omega
    | true =>
      simp only [hp, if_true, SectionPlan.length_stringTable] at hlength hend
      omega

/-- Sections that have been written stand one behind the other. -/
theorem emit_ok {plans : List SectionPlan} {u : Unit} (hw : w.Ready)
    (h : emit plans w = (.ok u, w')) :
    (∀ plan ∈ plans, plan.Exact) ∧ w'.Ready ∧ w'.sink.received.toList =
      w.sink.received.toList ++ SectionPlan.allBytes w.written plans := by
  induction plans generalizing w with
  | nil =>
    cases h
    exact ⟨by simp, hw, by simp [SectionPlan.allBytes]⟩
  | cons plan rest ih =>
    unfold emit at h
    split at h
    · cases h
    · cases h
    rename_i w₁ hput
    obtain ⟨hexact, hw₁, hreceived⟩ := putSection_ok hw hput
    obtain ⟨hrest, hready, hreceived'⟩ := ih hw₁ h
    have hwritten : w₁.written = w.written + (plan.bytes w.written).length := by
      simpa [written] using congrArg List.length hreceived
    refine ⟨by simpa using ⟨hexact, hrest⟩, hready, ?_⟩
    rw [hreceived', hreceived, hwritten, SectionPlan.allBytes, List.append_assoc]

/-- A sink that has received everything holds the sections of the plans, all of them of the sizes
that their plans say, and its size fits in 32 bits. -/
theorem run_ok {limit : Option Nat} {plans : List SectionPlan} {data : Array UInt8} {u : Unit}
    (h : run limit plans = (.ok u, data)) :
    data.toList = SectionPlan.allBytes 0 plans ∧ data.size < UInt32.size ∧
      ∀ plan ∈ plans, plan.Exact := by
  unfold run at h
  obtain ⟨hresult, rfl⟩ := Prod.mk.inj h
  obtain ⟨hexact, hready, hreceived⟩ := emit_ok (ready_empty limit) (Prod.ext hresult rfl)
  refine ⟨by simpa [empty, Sink.empty, written] using hreceived, ?_, hexact⟩
  exact lt_of_eq_of_lt hready.written hready.fits

end Writer

end LetterToSound
