import Mathlib
import LetterToSound.Proofs.Container.Sizes

/-!
# Where pooled strings stand

Values are written into a section one after the other, and some of the attempts may fail: a value is
refused by the sink, a string has no table or no room. Whatever comes of them, the strings of the table
stand in the order of their first use from one start on, so a place that has been returned for a string
is that of the string in the table, now and later. Between sections the table is empty and starts behind
all that has been written, so places that were returned in earlier sections lie before it.
-/

namespace LetterToSound

namespace Pool

/-- A string stands where it does alone: strings at one place are equal. -/
lemma place_inj (start : Nat) {strings : List Bytes} {s t : Bytes} (hs : s ∈ strings)
    (ht : t ∈ strings) : place start strings s = place start strings t ↔ s = t := by
  refine ⟨fun h => ?_, fun h => by rw [h]⟩
  obtain ⟨before, after, rfl, hbefore⟩ := List.eq_append_cons_of_mem hs
  by_cases hst : s = t
  · exact hst
  by_cases htb : t ∈ before
  · -- a string before the other one ends before that one starts
    have hlt := place_lt start htb
    rw [← place_of_prefix (List.prefix_append before (s :: after)) htb, ← h,
      place_eq _ _ hbefore] at hlt
    exact absurd hlt (lt_irrefl _)
  · have hfront : before ++ [s] <+: before ++ s :: after := by simp
    have hs : s ∈ before ++ [s] := by simp
    have hlt := place_lt start hs
    have hta : t ∈ after := by
      simpa [htb, Ne.symm hst] using ht
    obtain ⟨between, rest, rfl, hbetween⟩ := List.eq_append_cons_of_mem hta
    have hnot : t ∉ before ++ s :: between := by
      simp [htb, Ne.symm hst, hbetween]
    have hplace := place_eq start rest hnot
    rw [List.append_assoc, List.cons_append] at hplace
    rw [hplace, place_eq _ _ hbefore] at h
    simp only [bytes_append, bytes_cons, List.length_append, List.length_cons] at h
    omega

/-- Strings that are entered one after the other stand there once each, in the order of their first
use. -/
lemma foldl_enter_eq (strings : List Bytes) : strings.foldl enter [] = strings.eraseDups := by
  induction strings using List.reverseRecOn with
  | nil => rfl
  | append_singleton strings s ih =>
    rw [List.foldl_concat, ih, List.eraseDups_append]
    by_cases hs : s ∈ strings
    · rw [enter_of_mem (List.mem_eraseDups.2 hs)]
      simp [List.removeAll, hs]
    · rw [enter_of_not_mem fun h => hs (List.mem_eraseDups.1 h)]
      simp [List.removeAll, hs, List.eraseDups_cons]

end Pool

/-- The strings of a section are those that its values refer to, once each in the order of their first
use. -/
lemma SectionPlan.strings_eq (plan : SectionPlan) :
    plan.strings = (plan.body.filterMap Datum.string?).eraseDups := by
  rw [← Pool.foldl_enter_eq, strings, List.foldl_filterMap]
  congr 1
  funext strings d
  cases d <;> rfl

namespace Writer

variable {α β : Type} {w w' : Writer}

/-- A step that at most hands bytes to the sink, whatever comes of it. -/
def OnlyAppends (x : Write α) : Prop := ∀ w, ∃ bytes, Appends w bytes (x w).2

namespace OnlyAppends

variable {x : Write α} {f : α → Write β}

lemma pure (a : α) : OnlyAppends (Pure.pure a : Write α) := fun w => ⟨[], .refl w⟩

lemma bind (hx : OnlyAppends x) (hf : ∀ a, OnlyAppends (f a)) : OnlyAppends (x >>= f) := by
  intro w
  obtain ⟨bytes, happ⟩ := hx w
  rw [Write.bind_apply]
  match hxw : x w with
  | (.ok a, w₁) =>
    rw [hxw] at happ
    obtain ⟨more, happ'⟩ := hf a w₁
    exact ⟨_, happ.trans happ'⟩
  | (.error e, w₁) =>
    rw [hxw] at happ
    exact ⟨_, happ⟩

end OnlyAppends

lemma put_onlyAppends (bytes : Bytes) : OnlyAppends (put bytes) := by
  intro w
  unfold put
  split
  · exact ⟨[], .refl w⟩
  · exact ⟨bytes, by simp [Sink.append], rfl, rfl, rfl, rfl⟩

/-- What the table of a section has come to, some steps later: it starts where it did and may have more
strings, unless the section has none. -/
structure Pooled (start : Nat) (strings : List Bytes) (w : Writer) (more : List Bytes) (w' : Writer) :
    Prop where
  pools : Pools start more w'
  grows : strings <+: more
  pooling : w'.pooling = w.pooling
  closed : w.pooling = false → more = strings

namespace Pooled

variable {start : Nat} {strings more most : List Bytes} {w'' : Writer} {x : Write α}

lemma refl (hw : Pools start strings w) : Pooled start strings w strings w :=
  ⟨hw, List.prefix_rfl, rfl, fun _ => rfl⟩

lemma trans (h : Pooled start strings w more w') (h' : Pooled start more w' most w'') :
    Pooled start strings w most w'' :=
  ⟨h'.pools, h.grows.trans h'.grows, h'.pooling.trans h.pooling,
    fun hp => (h'.closed (h.pooling.trans hp)).trans (h.closed hp)⟩

lemma of_onlyAppends (hw : Pools start strings w) (hx : OnlyAppends x) :
    Pooled start strings w strings (x w).2 := by
  obtain ⟨bytes, happ⟩ := hx w
  exact ⟨hw.of_appends happ, List.prefix_rfl, happ.pooling, fun _ => rfl⟩

end Pooled

section References

lemma get_bind (f : Writer → Write α) (w : Writer) : (get >>= f) w = f w w := rfl

variable {s : Bytes} {p : Nat}

lemma putReference_of_some (h : w.places[s]? = some p) :
    putReference s w = (do putU32 (UInt32.ofNat p); return p : Write Nat) w := by
  unfold putReference
  rw [get_bind, h]

lemma putReference_of_closed (h : w.places[s]? = none) (hpooling : w.pooling = false) :
    putReference s w = (.error .noStringTable, w) := by
  unfold putReference
  rw [get_bind, h]
  dsimp only
  rw [get_bind, hpooling]
  rfl

lemma putReference_of_none (h : w.places[s]? = none) (hpooling : w.pooling = true) :
    putReference s w =
      (do let place ← enter s; putU32 (UInt32.ofNat place); return place : Write Nat) w := by
  unfold putReference
  rw [get_bind, h]
  dsimp only
  rw [get_bind, hpooling]
  rfl

/-- Writing a place appends at most, and the place comes back. -/
lemma putPlace_ok {q : Nat}
    (h : ((do putU32 (UInt32.ofNat p); return p : Write Nat) w).1 = .ok q) : q = p := by
  obtain ⟨_, w₁, -, h⟩ := Write.exists_of_bind_eq_ok (Prod.ext h rfl)
  cases h
  rfl

lemma enter_error {e : WriteError} (h : enter s w = (.error e, w')) : w' = w := by
  unfold enter at h
  split at h <;> cases h
  rfl

/-- A string keeps its place in the table from the time when it is entered, even when the reference to
it is refused; where the string cannot be entered, the table stays as it is. -/
lemma putReference_pooled {start : Nat} {strings : List Bytes} (hw : Pools start strings w)
    (s : Bytes) :
    ∃ more, Pooled start strings w more (putReference s w).2 ∧
      ∀ p, (putReference s w).1 = .ok p → s ∈ more ∧ p = Pool.place start more s := by
  have hplaces := hw.places s
  have hput (p : Nat) : OnlyAppends (do putU32 (UInt32.ofNat p); return p) :=
    (put_onlyAppends _).bind fun _ => .pure p
  by_cases hs : s ∈ strings
  · rw [if_pos hs] at hplaces
    rw [putReference_of_some hplaces]
    exact ⟨strings, .of_onlyAppends hw (hput _), fun p hp => ⟨hs, putPlace_ok hp⟩⟩
  rw [if_neg hs] at hplaces
  cases hpooling : w.pooling with
  | false =>
    rw [putReference_of_closed hplaces hpooling]
    exact ⟨strings, .refl hw, fun p hp => by cases hp⟩
  | true =>
    rw [putReference_of_none hplaces hpooling, Write.bind_apply]
    match henter : enter s w with
    | (.error e, w₁) =>
      rw [enter_error henter]
      exact ⟨strings, .refl hw, fun p hp => by cases hp⟩
    | (.ok place, w₁) =>
      obtain ⟨hw₁, hplace, -, hsame⟩ := enter_ok hw hs henter
      have hentered : Pooled start strings w (strings ++ [s]) w₁ :=
        ⟨hw₁, List.prefix_append strings [s], hsame, fun h => by simp [hpooling] at h⟩
      exact ⟨strings ++ [s], hentered.trans (.of_onlyAppends hw₁ (hput place)),
        fun p hp => ⟨by simp, (putPlace_ok hp).trans hplace⟩⟩

end References

/-- The string of a value and the place that came back for it. -/
def reference? : Datum × Except WriteError (Option Nat) → Option (Bytes × Nat)
  | (.pooled s, .ok (some place)) => some (s, place)
  | _ => none

lemma write_pooled {start : Nat} {strings : List Bytes} (hw : Pools start strings w) (d : Datum) :
    ∃ more, Pooled start strings w more (d.write w).2 ∧
      ∀ a, reference? (d, (d.write w).1) = some a → a.1 ∈ more ∧ a.2 = Pool.place start more a.1 := by
  cases d with
  | pooled s =>
    obtain ⟨more, hmore, hplace⟩ := putReference_pooled hw s
    match hput : putReference s w with
    | (.ok p, w') =>
      have hwrite : (Datum.pooled s).write w = (.ok (some p), w') := by
        rw [Datum.write, Write.bind_eq_of_ok _ hput]
        rfl
      rw [hput] at hmore hplace
      rw [hwrite]
      refine ⟨more, hmore, fun a ha => ?_⟩
      cases ha
      exact hplace p rfl
    | (.error e, w') =>
      have hwrite : (Datum.pooled s).write w = (.error e, w') := by
        rw [Datum.write, Write.bind_apply, hput]
      rw [hput] at hmore
      rw [hwrite]
      exact ⟨more, hmore, fun a ha => by cases ha⟩
  | fixed v =>
    have hx : OnlyAppends (Datum.fixed v).write :=
      ((put_onlyAppends _).bind fun _ => put_onlyAppends _).bind fun _ => .pure _
    exact ⟨strings, .of_onlyAppends hw hx, fun a ha => by cases ha⟩
  | inline s =>
    have hx : OnlyAppends (Datum.inline s).write :=
      ((put_onlyAppends _).bind fun _ => put_onlyAppends _).bind fun _ => .pure _
    exact ⟨strings, .of_onlyAppends hw hx, fun a ha => by cases ha⟩
  | _ =>
    exact ⟨strings, .of_onlyAppends hw ((put_onlyAppends _).bind fun _ => .pure _),
      fun a ha => by cases ha⟩

/-- Values that are written one after the other, whatever comes of each. -/
def attempts : List Datum → Writer → List (Datum × Except WriteError (Option Nat)) × Writer
  | [], w => ([], w)
  | d :: rest, w =>
    ((d, (d.write w).1) :: (attempts rest (d.write w).2).1, (attempts rest (d.write w).2).2)

/-- All places that have come back are those of their strings in the table at the end. -/
lemma attempts_pooled {start : Nat} {strings : List Bytes} (hw : Pools start strings w)
    (body : List Datum) :
    ∃ more, Pooled start strings w more (attempts body w).2 ∧
      ∀ a ∈ (attempts body w).1.filterMap reference?,
        a.1 ∈ more ∧ a.2 = Pool.place start more a.1 := by
  induction body generalizing w strings with
  | nil => exact ⟨strings, .refl hw, by simp [attempts]⟩
  | cons d rest ih =>
    obtain ⟨more, hmore, hplace⟩ := write_pooled hw d
    obtain ⟨most, hmost, hplaces⟩ := ih hmore.pools
    refine ⟨most, hmore.trans hmost, fun a ha => ?_⟩
    rcases List.mem_filterMap.1 ha with ⟨attempt, hmem, hattempt⟩
    rcases List.mem_cons.1 hmem with rfl | hmem
    · obtain ⟨hin, hat⟩ := hplace a hattempt
      exact ⟨hmost.grows.subset hin, by rw [hat, Pool.place_of_prefix hmost.grows hin]⟩
    · exact hplaces a (List.mem_filterMap.2 ⟨attempt, hmem, hattempt⟩)

/-- A value that can be written comes to the place of its string. -/
lemma write_place {start : Nat} {strings : List Bytes} {d : Datum} {result : Option Nat}
    (hw : Pools start strings w) (h : d.write w = (.ok result, w')) :
    result = d.string?.map (Pool.place start (d.enter strings)) := by
  cases d with
  | pooled s =>
    obtain ⟨p, w₁, hput, hsome⟩ := Write.exists_of_bind_eq_ok h
    cases hsome
    obtain ⟨more, hmore, hplace⟩ := putReference_pooled hw s
    rw [hput] at hmore hplace
    have hsame : more = Pool.enter strings s := by
      rw [← hmore.pools.pool, (putReference_ok hw hput).1.pool]
    rw [(hplace p rfl).2, hsame]
    rfl
  | _ =>
    obtain ⟨_, w₁, -, hnone⟩ := Write.exists_of_bind_eq_ok h
    cases hnone
    rfl

/-- Values that can all be written come to the places of their strings in the table at the end. -/
lemma attempts_of_putAll {start : Nat} {strings : List Bytes} {body : List Datum} {u : Unit}
    (hw : Pools start strings w) (h : putAll body w = (.ok u, w')) :
    attempts body w = (body.map fun d => (d, .ok (d.string?.map
      (Pool.place start (body.foldl Datum.enter strings)))), w') := by
  induction body generalizing w strings with
  | nil =>
    cases h
    rfl
  | cons d rest ih =>
    obtain ⟨_, w₁, hdiscard, h⟩ := Write.exists_of_bind_eq_ok h
    obtain ⟨result, w₂, hwrite, hdiscard⟩ := Write.exists_of_bind_eq_ok hdiscard
    cases hdiscard
    have hw₁ := (write_ok hw hwrite).1
    have hgrows := Datum.prefix_foldl_enter (d.enter strings) rest
    have hresult : result =
        d.string?.map (Pool.place start (rest.foldl Datum.enter (d.enter strings))) := by
      rw [write_place hw hwrite]
      cases d with
      | pooled s =>
        exact congrArg some (Pool.place_of_prefix hgrows (Pool.mem_enter_self strings s)).symm
      | _ => rfl
    rw [attempts, hwrite, ih hw₁ h, hresult]
    rfl

/-- What has become of a new writer when the sections that have been begun have also been ended, with
the strings that were referred to in them and the places that came back. Between the begin and the end
of a section values are written, whatever comes of each. -/
inductive Ended : List (Bytes × Nat) → Writer → Prop
  | new (limit : Option Nat) : Ended [] (empty limit)
  | endSection {earlier : List (Bytes × Nat)} {w w₁ w₂ : Writer} {magic : Bytes} {size : UInt32}
      {pooling : Bool} (body : List Datum) (h : Ended earlier w)
      (hbegin : beginSection magic size pooling w = (.ok (), w₁))
      (hend : Writer.endSection (attempts body w₁).2 = (.ok (), w₂)) :
      Ended (earlier ++ (attempts body w₁).1.filterMap reference?) w₂

/-- Places that came back in sections that have been ended lie before the end of what has been
written. -/
lemma Ended.ready {earlier : List (Bytes × Nat)} (h : Ended earlier w) :
    w.Ready ∧ ∀ a ∈ earlier, a.2 < w.written := by
  induction h with
  | new limit => exact ⟨ready_empty limit, by simp⟩
  | @endSection earlier w w₁ w₂ magic size pooling body h hbegin hend ih =>
    obtain ⟨hw, hearlier⟩ := ih
    let plan : SectionPlan := ⟨magic, size, pooling, [], none⟩
    have hw₁ : Pools (plan.poolStart w.written) [] w₁ := pools_of_beginSection hw hbegin
    obtain ⟨more, hmore, hplaces⟩ := attempts_pooled hw₁ body
    obtain ⟨hready, hoffset, -⟩ := endSection_ok hmore.pools
      (fun hp => hmore.closed (hmore.pooling.symm.trans hp)) hend
    have hend : w₂.written = plan.poolStart w.written + (Pool.bytes more).length := by
      rw [hready.written, hoffset, hmore.pools.offset]
    refine ⟨hready, fun a ha => ?_⟩
    rcases List.mem_append.1 ha with ha | ha
    · have := hearlier a ha
      simp only [SectionPlan.poolStart] at hend
      omega
    · obtain ⟨hin, hat⟩ := hplaces a ha
      rw [hat, hend]
      exact Pool.place_lt _ hin

/-- What two references to strings of a section have to do with each other: the same place just when the
same string. -/
def Faithful (references : List (Bytes × Nat)) : Prop :=
  ∀ a ∈ references, ∀ b ∈ references, a.2 = b.2 ↔ a.1 = b.1

/-- The string table that has been written between two states of a writer: strings with a zero byte
behind each, and each starts at its place. -/
structure TableBetween (w : Writer) (strings : List Bytes) (place : Bytes → Nat) (w' : Writer) :
    Prop where
  received : w'.sink.received.toList = w.sink.received.toList ++ SectionTag.strings.bytes ++
    LittleEndian.encode 4 w'.written ++ Pool.bytes strings
  starts : ∀ before s after, strings = before ++ s :: after →
    place s = w.written + Layout.stringTableHeaderSize + (Pool.bytes before).length

section Section

variable {magic : Bytes} {size : UInt32} {body : List Datum}

/-- References that come back in a section are those of its table, which starts behind everything that
has been written before. -/
lemma references_of_ready {w₁ : Writer} (hw : w.Ready) (body : List Datum)
    (hbegin : beginSection magic size true w = (.ok (), w₁)) :
    Faithful ((attempts body w₁).1.filterMap reference?) ∧
      ∀ a ∈ (attempts body w₁).1.filterMap reference?, w.written ≤ a.2 := by
  let plan : SectionPlan := ⟨magic, size, true, [], none⟩
  have hw₁ : Pools (plan.poolStart w.written) [] w₁ := pools_of_beginSection hw hbegin
  obtain ⟨more, -, hplaces⟩ := attempts_pooled hw₁ body
  refine ⟨fun a ha b hb => ?_, fun a ha => ?_⟩
  · obtain ⟨hina, hata⟩ := hplaces a ha
    obtain ⟨hinb, hatb⟩ := hplaces b hb
    rw [hata, hatb, Pool.place_inj _ hina hinb]
  · obtain ⟨hin, hat⟩ := hplaces a ha
    rw [hat, Pool.place, SectionPlan.poolStart]
    omega

/-- A section that has the size that was said can be ended behind its values, and its table is that of
the strings that the values refer to. -/
lemma endSection_of_body {w₁ w₂ : Writer} (hw : w.Ready) (hlimit : w₂.sink.limit = none)
    (hbegin : beginSection magic size true w = (.ok (), w₁))
    (hbody : putAll body w₁ = (.ok (), w₂))
    (hsize : magic.length + (body.map Datum.size).sum = size.toNat) :
    ∃ w₃, endSection w₂ = (.ok (), w₃) ∧
      TableBetween w₂ (body.filterMap Datum.string?).eraseDups
        (Pool.place (w.written + size.toNat + Layout.stringTableHeaderSize)
          (body.filterMap Datum.string?).eraseDups) w₃ := by
  let plan : SectionPlan := ⟨magic, size, true, body, none⟩
  have hstrings := plan.strings_eq
  have hw₁ : Pools (plan.poolStart w.written) [] w₁ := pools_of_beginSection hw hbegin
  obtain ⟨hw₂, -, hpooling, -⟩ := putAll_ok hw₁ hbody
  have hpooling₂ : w₂.pooling = true := hpooling.trans (beginSection_ok hbegin).2.2.2.1
  have hwritten : w₂.written = w.written + size.toNat := by
    have hbehind : w₂.written =
        w.written + (plan.magic.length + (plan.body.map Datum.size).sum) :=
      written_of_body hw hbegin hbody
    rw [hbehind]
    exact congrArg _ hsize
  have hoffset : w₂.offset = w₂.written + if w₂.pooling then
      (SectionPlan.stringTable (plan.poolStart w.written) plan.strings).length else 0 := by
    have hbehind : w₂.offset = w.written + plan.size.toNat + if w₂.pooling then
        (SectionPlan.stringTable (plan.poolStart w.written) plan.strings).length else 0 :=
      offset_of_body hw (.inl rfl) hbegin (show putAll plan.body w₁ = (.ok (), w₂) from hbody)
    rw [hbehind, hwritten]
  obtain ⟨_, w₃, hend, -⟩ := endSection_succeeds hlimit hw₂ hoffset
  obtain ⟨hready, hoffset₃, hreceived⟩ :=
    endSection_ok hw₂ (fun hp => by simp [hpooling₂] at hp) hend
  have hword : w₃.written = plan.poolStart w.written + (Pool.bytes plan.strings).length := by
    rw [hready.written, hoffset₃, hw₂.offset]
    rfl
  rw [← hstrings]
  refine ⟨w₃, hend, ?_, fun before s after hsplit => ?_⟩
  · rw [hreceived, hpooling₂, hword]
    simp [SectionPlan.stringTable, SectionPlan.strings, plan]
  · have hnodup : plan.strings.Nodup := (SectionPlan.foldl_enter List.nodup_nil body).1
    rw [hsplit] at hnodup
    have hnot : s ∉ before := fun hs =>
      List.disjoint_of_nodup_append hnodup hs (List.mem_cons_self ..)
    rw [hsplit, Pool.place_eq _ _ hnot, hwritten]

end Section

/-- The string table of a section that is begun when all sections before it have ended.

Whatever the sink takes: of the references that came back in the section, two have the same place just
when they have the same string, and no place is one that came back in a section before.

If the sink has no limit and the section fits in 32 bits with the strings that its values refer to,
everything can be written. If the section also has the size that was said, it can be ended: what is
written behind the tag and the end of its string table is each of the strings once, in the order of
their first use and with a zero byte behind it, and each starts at the place that came back for it. -/
theorem pooled_of_ended {earlier : List (Bytes × Nat)} (h : Ended earlier w) (magic : Bytes)
    (size : UInt32) (body : List Datum) :
    (∀ w₁, beginSection magic size true w = (.ok (), w₁) →
      let references := (attempts body w₁).1.filterMap reference?
      Faithful references ∧ ∀ a ∈ references, ∀ b ∈ earlier, b.2 < a.2) ∧
    (w.sink.limit = none →
      let strings := (body.filterMap Datum.string?).eraseDups
      w.written + size.toNat + Layout.stringTableHeaderSize + (Pool.bytes strings).length <
          UInt32.size →
      ∃ (w₁ w₂ : Writer) (place : Bytes → Nat), beginSection magic size true w = (.ok (), w₁) ∧
        attempts body w₁ = (body.map fun d => (d, .ok (d.string?.map place)), w₂) ∧
        (magic.length + (body.map Datum.size).sum = size.toNat →
          ∃ w₃, endSection w₂ = (.ok (), w₃) ∧ TableBetween w₂ strings place w₃)) := by
  obtain ⟨hw, hearlier⟩ := h.ready
  constructor
  · intro w₁ hbegin
    obtain ⟨hfaithful, hbehind⟩ := references_of_ready hw body hbegin
    exact ⟨hfaithful, fun a ha b hb => (hearlier b hb).trans_le (hbehind a ha)⟩
  · intro hlimit strings hfits
    let plan : SectionPlan := ⟨magic, size, true, body, none⟩
    have hstrings : plan.strings = strings := plan.strings_eq
    have hdeclared : w.written + plan.declared < UInt32.size := by
      rw [SectionPlan.declared, hstrings]
      simp only [plan, if_true]
      omega
    obtain ⟨w₁, w₂, hbegin, hbody, hlimit₂⟩ := body_succeeds hlimit hw (.inl rfl) hdeclared
    refine ⟨w₁, w₂, Pool.place (plan.poolStart w.written) strings, hbegin, ?_, fun hsize => ?_⟩
    · rw [attempts_of_putAll (pools_of_beginSection hw hbegin) hbody, ← hstrings]
      rfl
    · exact endSection_of_body hw hlimit₂ hbegin hbody hsize

/-- A writer that has ended one section, in which the string `dup` was referred to and stands at 14. -/
def sampleWriter : Writer where
  sink := ⟨none, #[65, 66, 67, 14, 0, 0, 0, 83, 84, 82, 18, 0, 0, 0, 100, 117, 112, 0]⟩
  offset := 18
  pooling := false
  pool := []
  places := ∅

lemma sampleWriter_ended : Ended [([100, 117, 112], 14)] sampleWriter := by
  let w₁ : Writer := ⟨⟨none, #[65, 66, 67]⟩, 14, true, [], ∅⟩
  let w₂ : Writer := ⟨⟨none, #[65, 66, 67, 14, 0, 0, 0]⟩, 18, true, [[100, 117, 112]],
    (∅ : Std.HashMap Bytes Nat).insert [100, 117, 112] 14⟩
  have hreference : putReference [100, 117, 112] w₁ = (.ok 14, w₂) := by
    rw [putReference_of_none Std.HashMap.getElem?_empty rfl]
    with_unfolding_all rfl
  have hbody : attempts [.pooled [100, 117, 112]] w₁ =
      ([(.pooled [100, 117, 112], .ok (some 14))], w₂) := by
    rw [attempts, Datum.write, Write.bind_eq_of_ok _ hreference]
    rfl
  have hend : endSection w₂ = (.ok (), sampleWriter) := by
    with_unfolding_all rfl
  have hbegin : beginSection [65, 66, 67] 7 true (empty none) = (.ok (), w₁) := rfl
  have hbehind : Writer.endSection (attempts [.pooled [100, 117, 112]] w₁).2 =
      (.ok (), sampleWriter) := by
    rw [hbody]
    exact hend
  have hended := Ended.endSection [.pooled [100, 117, 112]] (.new none) hbegin hbehind
  rw [hbody] at hended
  exact hended

/-- A section behind it has `dup` in its own table, at another place. -/
theorem pooled_of_sampleWriter :
    Ended [([100, 117, 112], 14)] sampleWriter ∧ sampleWriter.sink.limit = none ∧
      ∃ (w₁ w₂ w₃ : Writer) (place : Bytes → Nat) (p q : Nat),
        beginSection [68, 69, 70] 16 true sampleWriter = (.ok (), w₁) ∧
        attempts [.pooled [100, 117, 112], .u8 1, .pooled [117, 112], .pooled [100, 117, 112]] w₁ =
          ([(.pooled [100, 117, 112], .ok (some p)), (.u8 1, .ok none),
            (.pooled [117, 112], .ok (some q)), (.pooled [100, 117, 112], .ok (some p))], w₂) ∧
        14 < p ∧ p ≠ q ∧ endSection w₂ = (.ok (), w₃) ∧
        TableBetween w₂ [[100, 117, 112], [117, 112]] place w₃ := by
  refine ⟨sampleWriter_ended, rfl, ?_⟩
  obtain ⟨hreferences, hwritten⟩ := pooled_of_ended sampleWriter_ended [68, 69, 70] 16
    [.pooled [100, 117, 112], .u8 1, .pooled [117, 112], .pooled [100, 117, 112]]
  obtain ⟨w₁, w₂, place, hbegin, hbody, hend⟩ := hwritten rfl (by decide)
  obtain ⟨w₃, hend, htable⟩ := hend rfl
  obtain ⟨hfaithful, hbehind⟩ := hreferences w₁ hbegin
  rw [hbody] at hfaithful hbehind
  refine ⟨w₁, w₂, w₃, place, place [100, 117, 112], place [117, 112], hbegin, hbody, ?_, ?_, hend,
    htable⟩
  · exact hbehind ([100, 117, 112], place [100, 117, 112]) (by simp [reference?, Datum.string?])
      ([100, 117, 112], 14) (by simp)
  · have h := (hfaithful ([100, 117, 112], place [100, 117, 112])
      (by simp [reference?, Datum.string?]) ([117, 112], place [117, 112])
      (by simp [reference?, Datum.string?])).1
    exact fun hpq => by simpa using h hpq

end Writer

end LetterToSound
