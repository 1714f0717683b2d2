import Mathlib
import LetterToSound.Container.Cursor
import LetterToSound.Proofs.Container.Emission

/-!
# Reading what has been written

A cursor is looked at through the bytes that it has still to read. Where these start with the bytes
of a value, reading the value gives it back and leaves the cursor behind it. Only of a string with a
zero byte in it no more comes back than stands before the first one, for such a byte ends a string.
-/

namespace LetterToSound

namespace LittleEndian

/-- Reading gives back a number that fits in the bytes it was written to. -/
lemma decode_encode {width n : Nat} (h : n < 256 ^ width) : decode (encode width n) = n := by
  induction width generalizing n with
  | zero => simp only [Nat.pow_zero] at h; simp [encode, decode]; omega
  | succ width ih =>
    have hlt : n / 256 < 256 ^ width := by
      rw [Nat.pow_succ] at h
      exact Nat.div_lt_of_lt_mul (by omega)
    have := ih hlt
    simp only [decode] at this
    simp only [encode, decode, List.foldr_cons, this, UInt8.toNat_ofNat']
    omega

lemma decode_lt (bytes : Bytes) : decode bytes < 256 ^ bytes.length := by
  induction bytes with
  | nil => simp [decode]
  | cons b bytes ih =>
    have hb := b.toNat_lt
    simp only [decode, List.foldr_cons, List.length_cons, Nat.pow_succ] at ih ⊢
    omega

lemma encode_decode (bytes : Bytes) : encode bytes.length (decode bytes) = bytes := by
  induction bytes with
  | nil => rfl
  | cons b bytes ih =>
    have hb := b.toNat_lt
    have hdecode : decode (b :: bytes) = b.toNat + 256 * decode bytes := rfl
    have hhigh : (b.toNat + 256 * decode bytes) / 256 = decode bytes := by omega
    have hlow : UInt8.ofNat (b.toNat + 256 * decode bytes) = b := by
      rw [← UInt8.toNat_inj, UInt8.toNat_ofNat']
      omega
    rw [hdecode, List.length_cons, encode, hhigh, hlow, ih]

end LittleEndian

namespace Bytes

/-- What a string holds before its first zero byte. -/
def cut (s : Bytes) : Bytes := s.takeWhile (· ≠ 0)

@[simp] lemma cut_nil : cut [] = [] := rfl

lemma cut_of_not_mem {s : Bytes} (h : 0 ∉ s) : cut s = s := by
  rw [cut, List.takeWhile_eq_self_iff]
  exact fun b hb => by simpa using fun hzero : b = 0 => h (hzero ▸ hb)

lemma zero_not_mem_cut (s : Bytes) : 0 ∉ cut s := fun h => by
  simpa using List.mem_takeWhile_imp h

/-- The first zero byte from a string on stands behind what the string holds before its own. -/
lemma exists_eq_cut (s t : Bytes) : ∃ t', s ++ 0 :: t = cut s ++ 0 :: t' := by
  induction s with
  | nil => exact ⟨t, rfl⟩
  | cons b s ih =>
    by_cases hb : b = 0
    · exact ⟨s ++ 0 :: t, by simp [cut, hb]⟩
    · obtain ⟨t', ht'⟩ := ih
      refine ⟨t', ?_⟩
      rw [List.cons_append, ht', cut, cut, List.takeWhile_cons_of_pos (by simpa using hb)]
      rfl

/-- The bytes of a text are the bytes that it has been read from. -/
lemma ofString_of_toString? {b : Bytes} {s : String} (h : toString? b = some s) :
    ofString s = b := by
  unfold toString? String.fromUTF8? at h
  split at h
  · cases h
    simp [ofString, String.fromUTF8]
  · cases h

end Bytes

namespace Cursor

/-- What a cursor has still to read. -/
def rest (c : Cursor) : Bytes := c.data.toList.drop c.position

/-- The cursor `count` bytes further on. -/
def skip (c : Cursor) (count : Nat) : Cursor := { c with position := c.position + count }

@[simp] lemma data_skip (c : Cursor) (count : Nat) : (c.skip count).data = c.data := rfl

@[simp] lemma position_skip (c : Cursor) (count : Nat) :
    (c.skip count).position = c.position + count := rfl

@[simp] lemma skip_skip (c : Cursor) (m n : Nat) : (c.skip m).skip n = c.skip (m + n) := by
  simp [skip, Nat.add_assoc]

/-- What stands behind bytes that stand at an offset. -/
lemma drop_add_length {data xs ys : Bytes} {offset : Nat} (h : data.drop offset = xs ++ ys) :
    data.drop (offset + xs.length) = ys := by
  rw [← List.drop_drop, h, List.drop_left]

lemma rest_skip {c : Cursor} {xs ys : Bytes} (h : c.rest = xs ++ ys) :
    (c.skip xs.length).rest = ys := drop_add_length h

lemma rest_skip_one {c : Cursor} {b : UInt8} {ys : Bytes} (h : c.rest = b :: ys) :
    (c.skip 1).rest = ys := by
  have hone : c.rest = [b] ++ ys := h
  exact rest_skip hone

lemma rest_skip_encode {c : Cursor} {width n : Nat} {ys : Bytes}
    (h : c.rest = LittleEndian.encode width n ++ ys) : (c.skip width).rest = ys := by
  have hskip := rest_skip h
  rwa [LittleEndian.length_encode] at hskip

/-- Bytes that are still to be read lie in the data. -/
lemma position_add_le {c : Cursor} {xs ys : Bytes} (h : c.rest = xs ++ ys) (hne : xs ≠ []) :
    c.position + xs.length ≤ c.data.size := by
  have hlength := congrArg List.length h
  have hpos := List.length_pos_iff.mpr hne
  simp only [rest, List.length_drop, Array.length_toList, List.length_append] at hlength
  omega

lemma extract_eq {data : Array UInt8} {offset : Nat} {xs ys : Bytes}
    (h : data.toList.drop offset = xs ++ ys) :
    (data.extract offset (offset + xs.length)).toList = xs := by
  rw [Array.toList_extract, List.extract_eq_take_drop, h]
  simp

lemma lt_size_of_drop {data : Array UInt8} {offset : Nat} {b : UInt8} {t : Bytes}
    (h : data.toList.drop offset = b :: t) : offset < data.size := by
  by_contra hge
  have hnil : data.toList.drop offset = [] := List.drop_of_length_le (by simpa using hge)
  rw [hnil] at h
  cases h

/-- The first zero byte behind a string that holds none is the one that ends it. -/
lemma zeroFrom?_eq {data : Array UInt8} {offset : Nat} {s t : Bytes}
    (h : data.toList.drop offset = s ++ 0 :: t) (hs : 0 ∉ s) :
    zeroFrom? data offset = some (offset + s.length) := by
  induction s generalizing offset with
  | nil =>
    have hlt := lt_size_of_drop h
    have hget : data[offset] = 0 := by
      rw [List.drop_eq_getElem_cons (by simpa using hlt)] at h
      simpa using (List.cons.inj h).1
    rw [zeroFrom?, dif_pos hlt, if_pos hget]
    simp
  | cons b s ih =>
    have hlt := lt_size_of_drop h
    rw [List.drop_eq_getElem_cons (by simpa using hlt)] at h
    obtain ⟨hget, htail⟩ := List.cons.inj h
    have hb : data[offset] ≠ 0 := by
      rw [← Array.getElem_toList, hget]
      exact fun hb => hs (hb ▸ List.mem_cons_self)
    rw [zeroFrom?, dif_pos hlt, if_neg hb, ih htail fun hmem => hs (List.mem_cons_of_mem b hmem)]
    simp only [List.length_cons]
    congr 1
    omega

lemma string?_eq {data : Array UInt8} {offset : Nat} {s t : Bytes}
    (h : data.toList.drop offset = s ++ 0 :: t) : string? data offset = some (Bytes.cut s) := by
  obtain ⟨t', ht'⟩ := Bytes.exists_eq_cut s t
  rw [ht'] at h
  rw [string?, zeroFrom?_eq h (Bytes.zero_not_mem_cut s), Option.map_some, extract_eq h]

lemma word?_eq {data : Array UInt8} {offset n : Nat} {t : Bytes}
    (h : data.toList.drop offset = LittleEndian.encode 4 n ++ t) (hn : n < UInt32.size) :
    word? data offset = some n := by
  have hle : offset + 4 ≤ data.size := by
    have := congrArg List.length h
    simp only [List.length_drop, Array.length_toList, List.length_append,
      LittleEndian.length_encode] at this
    omega
  have hextract := extract_eq h
  rw [LittleEndian.length_encode] at hextract
  rw [word?, if_pos hle, hextract, LittleEndian.decode_encode (by simpa using hn)]

/-- A string stands in data where `place` says, up to its first zero byte at least, and no reference
to it is zero. -/
structure Refers (data : Array UInt8) (place : Bytes → Nat) (s : Bytes) : Prop where
  fits : place s < UInt32.size
  ne_zero : place s ≠ 0
  string : string? data (place s) = some (Bytes.cut s)

/-- The strings of a table stand at their places. -/
lemma refers_of_pool {data : Array UInt8} {start : Nat} {strings : List Bytes} {s t : Bytes}
    (hsize : data.size < UInt32.size) (hstart : 0 < start)
    (h : data.toList.drop start = Pool.bytes strings ++ t) (hs : s ∈ strings) :
    Refers data (Pool.place start strings) s := by
  obtain ⟨before, after, rfl, hbefore⟩ := List.eq_append_cons_of_mem hs
  have hplace := Pool.place_eq start after hbefore
  have hdrop : data.toList.drop (Pool.place start (before ++ s :: after) s) =
      s ++ 0 :: (Pool.bytes after ++ t) := by
    rw [Pool.bytes_append, List.append_assoc] at h
    rw [hplace, drop_add_length h]
    simp
  have hlength := congrArg List.length hdrop
  simp only [List.length_drop, Array.length_toList, List.length_append, List.length_cons] at hlength
  exact ⟨by omega, by omega, string?_eq hdrop⟩

end Cursor

namespace Read

open Cursor

variable {c : Cursor} {ys : Bytes}

lemma pure_apply {α : Type} (a : α) (c : Cursor) : (pure a : Read α) c = (.ok a, c) := rfl

lemma discard_eq {α : Type} {x : Read α} {a : α} {c' : Cursor} (h : x c = (.ok a, c')) :
    (discard x : Read Unit) c = (.ok (), c') := by
  change (x >>= fun _ => pure ()) c = _
  rw [bind_apply, h]
  rfl

lemma bytes_eq {xs : Bytes} (h : c.rest = xs ++ ys) (hne : xs ≠ []) :
    bytes xs.length c = (.ok xs, c.skip xs.length) := by
  rw [bytes, if_pos (position_add_le h hne), extract_eq h, skip]

lemma number_eq {width n : Nat} (h : c.rest = LittleEndian.encode width n ++ ys)
    (hwidth : 0 < width) (hn : n < 256 ^ width) :
    number width c = (.ok n, c.skip width) := by
  have hne : LittleEndian.encode width n ≠ [] := by
    rw [← List.length_pos_iff, LittleEndian.length_encode]
    exact hwidth
  have hbytes := bytes_eq h hne
  rw [LittleEndian.length_encode] at hbytes
  rw [number, bind_apply, hbytes]
  simp only [LittleEndian.decode_encode hn]
  rfl

lemma u8_eq {b : UInt8} (h : c.rest = b :: ys) : u8 c = (.ok b, c.skip 1) := by
  have hone : LittleEndian.encode 1 b.toNat = [b] := by simp [LittleEndian.encode]
  rw [u8, bind_apply, number_eq (n := b.toNat) (by rw [hone]; exact h) (by decide) b.toNat_lt]
  simp only [UInt8.ofNat_toNat]
  rfl

lemma u16_eq {n : Nat} (h : c.rest = LittleEndian.encode 2 n ++ ys) (hn : n < UInt16.size) :
    u16 c = (.ok (UInt16.ofNat n), c.skip 2) := by
  rw [u16, bind_apply, number_eq h (by decide) (by simpa using hn)]
  rfl

lemma u32_eq {n : Nat} (h : c.rest = LittleEndian.encode 4 n ++ ys) (hn : n < UInt32.size) :
    u32 c = (.ok (UInt32.ofNat n), c.skip 4) := by
  rw [u32, bind_apply, number_eq h (by decide) (by simpa using hn)]
  rfl

lemma stringAt_eq {offset : Nat} {s : Bytes} (h : string? c.data offset = some s) :
    stringAt offset c = (.ok s, c) := by
  rw [stringAt, h]

/-- Reading a reference gives the string that stands at its place. -/
lemma reference_eq {place : Bytes → Nat} {s : Bytes} (hs : Refers c.data place s)
    (h : c.rest = LittleEndian.encode 4 (place s) ++ ys) :
    reference c = (.ok (Bytes.cut s), c.skip 4) := by
  rw [reference, bind_apply, u32_eq h hs.fits]
  simp only [UInt32.toNat_ofNat_of_lt' hs.fits]
  exact stringAt_eq hs.string

/-- The text of bytes that have to be UTF-8. -/
def decoded (b : Bytes) : Except LoadError String :=
  match Bytes.toString? b with
  | some s => .ok s
  | none => .error .invalidUtf8

lemma decoded_eq_ok {b : Bytes} {s : String} (h : decoded b = .ok s) : Bytes.toString? b = some s := by
  unfold decoded at h
  split at h
  · cases h
    assumption
  · cases h

lemma text_eq {place : Bytes → Nat} {s : Bytes} (hs : Refers c.data place s)
    (h : c.rest = LittleEndian.encode 4 (place s) ++ ys) :
    text c = (decoded (Bytes.cut s), c.skip 4) := by
  rw [text, bind_apply, reference_eq hs h]
  rfl

lemma tag_eq {t : SectionTag} (h : c.rest = t.bytes ++ ys) : tag c = (.ok t, c.skip 3) := by
  have hne : t.bytes ≠ [] := by
    rw [← List.length_pos_iff, SectionTag.length_bytes]
    decide
  have hbytes := bytes_eq h hne
  rw [SectionTag.length_bytes] at hbytes
  rw [tag, bind_apply, hbytes]
  simp only [lift, tagOf, SectionTag.ofBytes?_bytes]

/-- A string table is passed over. -/
lemma skipStrings_eq {stop : Nat} {xs : Bytes} (h : c.rest = LittleEndian.encode 4 stop ++ (xs ++ ys))
    (hstop : stop = c.position + 4 + xs.length) (hsize : c.data.size < UInt32.size) :
    skipStrings c = (.ok (), c.skip (4 + xs.length)) := by
  have hle : stop ≤ c.data.size := by
    have := congrArg List.length h
    simp only [rest, List.length_drop, Array.length_toList, List.length_append,
      LittleEndian.length_encode] at this
    omega
  have hfits : stop < UInt32.size := by omega
  have hbounds : ¬(stop < c.position + 4 ∨ c.data.size < stop) := by omega
  rw [skipStrings, u32_eq h hfits]
  simp only [UInt32.toNat_ofNat_of_lt' hfits, position_skip, data_skip, if_neg hbounds]
  simp [skip, hstop, Nat.add_assoc]

/-- Steps that are each known on the bytes of their value, one after the other. -/
lemma timesOnto_eq {α β : Type} {step : Read β} {enc : α → Bytes} {f : α → Except LoadError β}
    {xs : List α} (done : List β) (h : c.rest = xs.flatMap enc ++ ys)
    (hstep : ∀ x ∈ xs, ∀ (d : Cursor) (zs : Bytes), d.data = c.data → d.rest = enc x ++ zs →
      step d = (f x, d.skip (enc x).length)) :
    (timesOnto step done xs.length c).1 = (xs.mapM f).map (done.reverse ++ ·) ∧
      ∀ bs, xs.mapM f = .ok bs →
        (timesOnto step done xs.length c).2 = c.skip (xs.flatMap enc).length := by
  induction xs generalizing c done with
  | nil =>
    refine ⟨?_, fun bs _ => rfl⟩
    simp [timesOnto, Except.map, pure, ExceptT.pure, ExceptT.mk, Except.pure, StateT.pure]
  | cons x xs ih =>
    rw [List.flatMap_cons, List.append_assoc] at h
    have hx := hstep x List.mem_cons_self c _ rfl h
    have hrest := rest_skip h
    simp only [List.length_cons, timesOnto, bind_apply, hx, List.mapM_cons]
    cases hfx : f x with
    | error e =>
      exact ⟨rfl, fun bs hbs => by cases hbs⟩
    | ok b =>
      obtain ⟨hresult, hcursor⟩ := ih (b :: done) hrest fun x' hx' d zs hd =>
        hstep x' (List.mem_cons_of_mem x hx') d zs hd
      simp only [bind, Except.bind]
      rw [hresult]
      cases hxs : xs.mapM f with
      | error e => exact ⟨rfl, fun bs hbs => by cases hbs⟩
      | ok bs =>
        refine ⟨by simp [Except.map, pure, Except.pure], fun _ _ => ?_⟩
        rw [hcursor bs hxs, skip_skip, List.flatMap_cons, List.length_append]

/-- Steps that are each known on the bytes of their value succeed if all values are good, and behind
them the cursor stands behind the bytes of all. -/
lemma times_eq_of_ok {α β : Type} {step : Read β} {enc : α → Bytes} {f : α → Except LoadError β}
    {xs : List α} {bs : List β} (h : c.rest = xs.flatMap enc ++ ys)
    (hstep : ∀ x ∈ xs, ∀ (d : Cursor) (zs : Bytes), d.data = c.data → d.rest = enc x ++ zs →
      step d = (f x, d.skip (enc x).length)) (hok : xs.mapM f = .ok bs) :
    times xs.length step c = (.ok bs, c.skip (xs.flatMap enc).length) := by
  obtain ⟨hresult, hcursor⟩ := timesOnto_eq [] h hstep
  rw [hok] at hresult
  exact Prod.ext hresult (hcursor bs hok)

lemma times_eq_of_error {α β : Type} {step : Read β} {enc : α → Bytes} {f : α → Except LoadError β}
    {xs : List α} {e : LoadError} (h : c.rest = xs.flatMap enc ++ ys)
    (hstep : ∀ x ∈ xs, ∀ (d : Cursor) (zs : Bytes), d.data = c.data → d.rest = enc x ++ zs →
      step d = (f x, d.skip (enc x).length)) (herror : xs.mapM f = .error e) :
    (times xs.length step c).1 = .error e := by
  rw [times, (timesOnto_eq [] h hstep).1, herror]
  rfl

/-- Checks that are each known to pass over the bytes of their value pass over the bytes of all. -/
lemma discard_times_eq {α : Type} {check : Read Unit} {enc : α → Bytes} {xs : List α}
    (h : c.rest = xs.flatMap enc ++ ys)
    (hcheck : ∀ x ∈ xs, ∀ (d : Cursor) (zs : Bytes), d.data = c.data → d.rest = enc x ++ zs →
      check d = (.ok (), d.skip (enc x).length)) :
    (discard (times xs.length check) : Read Unit) c = (.ok (), c.skip (xs.flatMap enc).length) := by
  have hall : xs.mapM (fun _ => (pure () : Except LoadError Unit)) = .ok (xs.map fun _ => ()) :=
    List.mapM_pure
  exact discard_eq (times_eq_of_ok h hcheck hall)

end Read

namespace Walk

variable {α : Type} {body : SectionTag → Read α} {forward : ∀ tag, (body tag).Forward} {c : Cursor}

/-- Sections read before only come before the others. -/
lemma sectionsOnto_eq (done : List α) :
    sectionsOnto body forward done c = (sections body forward c).map (done.reverse ++ ·) := by
  rw [sections]
  induction hn : c.data.size - c.position using Nat.strong_induction_on generalizing c done with
  | _ n ih =>
    subst hn
    rw [sectionsOnto, sectionsOnto]
    split
    · simp [Except.map]
    rename_i hend
    split
    · rfl
    · rename_i a c' hread
      obtain ⟨hdata, hlt, hle⟩ := position_readSection forward hread
      have hless : c'.data.size - c'.position < c.data.size - c.position := by
        rw [hdata]
        omega
      rw [ih _ hless (a :: done) rfl, ih _ hless [a] rfl]
      cases sectionsOnto body forward [] c' <;> simp [Except.map]

lemma sections_of_end (h : c.data.size ≤ c.position) : sections body forward c = .ok [] := by
  rw [sections, sectionsOnto, dif_pos h]
  rfl

/-- A section that can be read comes before those behind it. -/
lemma sections_of_ok {c' : Cursor} {a : α} (h : c.position < c.data.size)
    (hread : readSection body c = (.ok a, c')) :
    sections body forward c = (sections body forward c').map (a :: ·) := by
  have hstep : sections body forward c = sectionsOnto body forward [a] c' := by
    rw [sections, sectionsOnto, dif_neg (by omega)]
    split
    · rename_i hread'
      rw [hread] at hread'
      cases hread'
    · rename_i hread'
      rw [hread] at hread'
      cases hread'
      rfl
  rw [hstep, sectionsOnto_eq]
  rfl

lemma sections_of_error {e : LoadError} (h : c.position < c.data.size)
    (hread : (readSection body c).1 = .error e) : sections body forward c = .error e := by
  rw [sections, sectionsOnto, dif_neg (by omega)]
  split
  · rename_i hread'
    rw [hread'] at hread
    exact congrArg _ (Except.error.inj hread)
  · rename_i hread'
    rw [hread'] at hread
    cases hread

end Walk

namespace SectionPlan

open Cursor

variable {c : Cursor} {plan : SectionPlan} {ys : Bytes}

lemma poolStart_eq (hexact : plan.Exact) (hpooling : plan.pooling = true) (start : Nat) :
    plan.poolStart start = start + (plan.magic ++ plan.values start).length +
      Layout.stringTableHeaderSize := by
  rw [poolStart, if_pos hpooling, ← hexact.size, List.length_append, length_values]

/-- The bytes of a section with a string table: its own, and those of the table. -/
lemma bytes_eq_of_pooling (hpooling : plan.pooling = true) (start : Nat) :
    plan.bytes start = (plan.magic ++ plan.values start) ++
      stringTable (plan.poolStart start) plan.strings := by
  rw [bytes, if_pos hpooling, List.append_assoc]

/-- The strings of a section stand where its references say. -/
lemma refers_of_rest (hexact : plan.Exact) (hpooling : plan.pooling = true)
    (hsize : c.data.size < UInt32.size) (h : c.rest = plan.bytes c.position ++ ys) {s : Bytes}
    (hs : s ∈ plan.strings) :
    Refers c.data (Pool.place (plan.poolStart c.position) plan.strings) s := by
  have hstart := poolStart_eq hexact hpooling c.position
  refine refers_of_pool (t := ys) hsize (by rw [hstart]; exact Nat.succ_pos _) ?_ hs
  rw [bytes_eq_of_pooling hpooling, List.append_assoc] at h
  have htable := rest_skip h
  rw [stringTable, ← List.append_assoc SectionTag.strings.bytes, List.append_assoc] at htable
  have hpool := rest_skip htable
  rw [hstart, ← hpool]
  simp [rest, Layout.stringTableHeaderSize, Nat.add_assoc]

/-- A string table is read as a section without values. -/
lemma readSection_stringTable {α : Type} {body : SectionTag → Read α} {a : α} {start : Nat}
    {strings : List Bytes} (hbody : body .strings = do Read.skipStrings; return a)
    (hsize : c.data.size < UInt32.size)
    (h : c.rest = stringTable start strings ++ ys)
    (hstart : start = c.position + Layout.stringTableHeaderSize) :
    Walk.readSection body c = (.ok a, c.skip (stringTable start strings).length) := by
  have hlength := length_stringTable start strings
  rw [stringTable, List.append_assoc] at h
  have hbehind := rest_skip h
  rw [SectionTag.length_bytes] at hbehind
  rw [List.append_assoc] at hbehind
  have hskip := Read.skipStrings_eq hbehind (by
    simp only [position_skip, hstart, Layout.stringTableHeaderSize]) hsize
  rw [Walk.readSection, Read.bind_apply, Read.tag_eq h]
  simp only [hbody, Read.bind_apply, hskip, Read.pure_apply, skip_skip, hlength,
    Layout.stringTableHeaderSize, ← Nat.add_assoc]

end SectionPlan

namespace Walk

open Cursor

variable {α : Type} {body : SectionTag → Read α} {forward : ∀ tag, (body tag).Forward} {c : Cursor}
  {a : α} {ys : Bytes}

lemma position_lt_of_rest {xs : Bytes} (h : c.rest = xs ++ ys) (hne : xs ≠ []) :
    c.position < c.data.size := by
  have hle := position_add_le h hne
  have hpos := List.length_pos_iff.mpr hne
  omega

/-- The strings of a section are a section of their own. -/
lemma sections_stringTable {start : Nat} {strings : List Bytes}
    (hbody : body .strings = do Read.skipStrings; return a) (hsize : c.data.size < UInt32.size)
    (h : c.rest = SectionPlan.stringTable start strings ++ ys)
    (hstart : start = c.position + Layout.stringTableHeaderSize) :
    sections body forward c =
      (sections body forward (c.skip (SectionPlan.stringTable start strings).length)).map
        (a :: ·) := by
  have hlength := SectionPlan.length_stringTable start strings
  have hne : SectionPlan.stringTable start strings ≠ [] := by
    rw [← List.length_pos_iff, hlength, Layout.stringTableHeaderSize]
    omega
  exact sections_of_ok (position_lt_of_rest h hne)
    (SectionPlan.readSection_stringTable hbody hsize h hstart)

/-- Behind the values of a section its strings are read, and the walk goes on behind them. -/
lemma sections_behind_values {plan : SectionPlan}
    (hbody : body .strings = do Read.skipStrings; return a) (hexact : plan.Exact)
    (hpooling : plan.pooling = true) (hsize : c.data.size < UInt32.size)
    (h : c.rest = plan.bytes c.position ++ ys) :
    sections body forward (c.skip (plan.magic ++ plan.values c.position).length) =
      (sections body forward (c.skip (plan.bytes c.position).length)).map (a :: ·) := by
  have hbytes := SectionPlan.bytes_eq_of_pooling hpooling c.position
  rw [hbytes, List.append_assoc] at h
  have htable : sections body forward (c.skip (plan.magic ++ plan.values c.position).length) = _ :=
    sections_stringTable hbody hsize (rest_skip h)
      (SectionPlan.poolStart_eq hexact hpooling c.position)
  rw [htable, skip_skip, hbytes]
  simp only [List.length_append, Nat.add_assoc]

end Walk

end LetterToSound
