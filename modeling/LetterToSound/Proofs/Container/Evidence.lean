import Mathlib
import LetterToSound.Proofs.Container.Reading

/-!
# What reading has found

A step of reading that succeeds has found its value in the data: a number stands where the cursor was,
and behind a reference stands a string with the zero byte that ends it. So whatever has been read once
is there when it is looked up later.
-/

namespace LetterToSound

namespace Cursor

variable {data : Array UInt8} {offset n : Nat} {s : Bytes}

/-- A word stands at an offset. -/
def HoldsWord (data : Array UInt8) (offset n : Nat) : Prop :=
  n < UInt32.size ∧ LittleEndian.encode 4 n <+: data.toList.drop offset

/-- A string stands at an offset, up to the first zero byte. -/
def HoldsString (data : Array UInt8) (offset : Nat) (s : Bytes) : Prop :=
  0 ∉ s ∧ s ++ [0] <+: data.toList.drop offset

/-- A reference to a string stands at an offset. -/
def HoldsReference (data : Array UInt8) (offset : Nat) (s : Bytes) : Prop :=
  ∃ place, HoldsWord data offset place ∧ HoldsString data place s

/-- References to two strings stand at an offset, one behind the other. -/
def HoldsPair (data : Array UInt8) (offset : Nat) (p : Bytes × Bytes) : Prop :=
  HoldsReference data offset p.1 ∧ HoldsReference data (offset + Layout.stringReferenceSize) p.2

lemma zero_mem_of_zeroFrom? {stop : Nat} (h : zeroFrom? data offset = some stop) :
    0 ∈ data.toList.drop offset := by
  fun_induction zeroFrom? data offset with
  | case1 i hi hzero =>
    rw [List.drop_eq_getElem_cons (by simpa using hi)]
    exact List.mem_cons.mpr (.inl (by simpa using hzero.symm))
  | case2 i hi hne ih =>
    rw [List.drop_eq_getElem_cons (by simpa using hi)]
    exact List.mem_cons_of_mem _ (ih h)
  | case3 => cases h

/-- What is read as the string at an offset stands there. -/
lemma string?_eq_some_iff : string? data offset = some s ↔ HoldsString data offset s := by
  have hholds {s : Bytes} (hs : HoldsString data offset s) : string? data offset = some s := by
    obtain ⟨hzero, rest, hrest⟩ := hs
    rw [List.append_assoc] at hrest
    rw [string?_eq hrest.symm, Bytes.cut_of_not_mem hzero]
  refine ⟨fun h => ?_, hholds⟩
  obtain ⟨stop, hstop, -⟩ := Option.map_eq_some_iff.mp h
  obtain ⟨before, after, heq, hbefore⟩ :=
    List.eq_append_cons_of_mem (zero_mem_of_zeroFrom? hstop)
  have hfirst : HoldsString data offset before := ⟨hbefore, after, by rw [heq]; simp⟩
  obtain rfl : before = s := Option.some.inj ((hholds hfirst).symm.trans h)
  exact hfirst

/-- What is read as the word at an offset stands there. -/
lemma word?_eq_some_iff : word? data offset = some n ↔ HoldsWord data offset n := by
  constructor
  · intro h
    unfold word? at h
    split at h
    · rename_i hfits
      have hlength : (data.extract offset (offset + 4)).toList.length = 4 := by
        rw [Array.length_toList, Array.size_extract]
        omega
      obtain rfl := Option.some.inj h
      constructor
      · have hlt := LittleEndian.decode_lt (data.extract offset (offset + 4)).toList
        rw [hlength] at hlt
        exact hlt
      · have hencode := LittleEndian.encode_decode (data.extract offset (offset + 4)).toList
        rw [hlength] at hencode
        rw [hencode, Array.toList_extract, List.extract_eq_take_drop]
        exact List.take_prefix _ _
    · cases h
  · rintro ⟨hn, rest, hrest⟩
    exact word?_eq hrest.symm hn

lemma HoldsWord.add_le (h : HoldsWord data offset n) : offset + 4 ≤ data.size := by
  have hword := word?_eq_some_iff.mpr h
  unfold word? at hword
  split at hword
  · assumption
  · cases hword

lemma HoldsString.lt (h : HoldsString data offset s) : offset < data.size := by
  have hlength := h.2.length_le
  rw [List.length_append, List.length_singleton, List.length_drop] at hlength
  rw [← Array.length_toList]
  omega

/-- What stands behind bytes that are still to be read stands with them. -/
lemma prefix_append {c : Cursor} {xs ys : Bytes} {count : Nat} (hxs : xs <+: c.rest)
    (hcount : xs.length = count) (hys : ys <+: (c.skip count).rest) : xs ++ ys <+: c.rest := by
  obtain ⟨behind, hrest⟩ := hxs
  rw [← hcount, rest_skip hrest.symm] at hys
  rw [← hrest]
  exact (List.prefix_append_right_inj xs).mpr hys

end Cursor

namespace Read

open Cursor

variable {α β : Type} {c c' : Cursor}

/-- Steps that follow one another have each succeeded where the one before has stopped. -/
lemma exists_of_bind {x : Read α} {f : α → Read β} {b : β} (h : (x >>= f) c = (.ok b, c')) :
    ∃ a middle, x c = (.ok a, middle) ∧ f a middle = (.ok b, c') := by
  rw [bind_apply] at h
  split at h
  · rename_i a middle hx
    exact ⟨a, middle, hx, h⟩
  · cases h

lemma exists_of_discard {x : Read α} (h : (discard x : Read Unit) c = (.ok (), c')) :
    ∃ a, x c = (.ok a, c') := by
  obtain ⟨a, middle, hx, hpure⟩ := exists_of_bind h
  cases hpure
  exact ⟨a, hx⟩

lemma bytes_ok {count : Nat} {b : Bytes} (h : bytes count c = (.ok b, c')) :
    c' = c.skip count ∧ b.length = count ∧ b <+: c.rest := by
  unfold bytes at h
  split at h
  · rename_i hfits
    cases h
    refine ⟨rfl, ?_, ?_⟩
    · rw [Array.length_toList, Array.size_extract]
      omega
    · rw [Array.toList_extract, List.extract_eq_take_drop]
      exact List.take_prefix _ _
  · cases h

lemma number_ok {width n : Nat} (h : number width c = (.ok n, c')) :
    c' = c.skip width ∧ n < 256 ^ width ∧ LittleEndian.encode width n <+: c.rest := by
  obtain ⟨b, middle, hb, hpure⟩ := exists_of_bind h
  obtain ⟨rfl, rfl, hprefix⟩ := bytes_ok hb
  cases hpure
  exact ⟨rfl, LittleEndian.decode_lt b, by rwa [LittleEndian.encode_decode]⟩

lemma u8_ok {b : UInt8} (h : u8 c = (.ok b, c')) : c' = c.skip 1 ∧ [b] <+: c.rest := by
  obtain ⟨n, middle, hn, hpure⟩ := exists_of_bind h
  obtain ⟨rfl, -, hprefix⟩ := number_ok hn
  cases hpure
  exact ⟨rfl, hprefix⟩

lemma u16_ok {n : UInt16} (h : u16 c = (.ok n, c')) :
    c' = c.skip 2 ∧ LittleEndian.encode 2 n.toNat <+: c.rest := by
  obtain ⟨n, middle, hn, hpure⟩ := exists_of_bind h
  obtain ⟨rfl, hlt, hprefix⟩ := number_ok hn
  cases hpure
  exact ⟨rfl, by rwa [UInt16.toNat_ofNat_of_lt' hlt]⟩

lemma u32_ok {n : UInt32} (h : u32 c = (.ok n, c')) :
    c' = c.skip 4 ∧ HoldsWord c.data c.position n.toNat := by
  obtain ⟨n, middle, hn, hpure⟩ := exists_of_bind h
  obtain ⟨rfl, hlt, hprefix⟩ := number_ok hn
  cases hpure
  rw [UInt32.toNat_ofNat_of_lt' hlt]
  exact ⟨rfl, hlt, hprefix⟩

lemma stringAt_ok {offset : Nat} {s : Bytes} (h : stringAt offset c = (.ok s, c')) :
    c' = c ∧ HoldsString c.data offset s := by
  unfold stringAt at h
  split at h
  · rename_i hs
    cases h
    exact ⟨rfl, string?_eq_some_iff.mp hs⟩
  · cases h

/-- A reference that has been read stands in the data, and so does its string. -/
lemma reference_ok {s : Bytes} (h : reference c = (.ok s, c')) :
    c' = c.skip 4 ∧ HoldsReference c.data c.position s := by
  obtain ⟨place, middle, hplace, hstring⟩ := exists_of_bind h
  obtain ⟨rfl, hword⟩ := u32_ok hplace
  obtain ⟨rfl, hs⟩ := stringAt_ok hstring
  exact ⟨rfl, _, hword, hs⟩

lemma text_ok {t : String} (h : text c = (.ok t, c')) : c' = c.skip 4 := by
  obtain ⟨s, middle, hs, hlift⟩ := exists_of_bind h
  obtain ⟨rfl, -⟩ := reference_ok hs
  exact (congrArg Prod.snd hlift).symm

lemma magic_ok {expected : Bytes} {name : String} (h : magic expected name c = (.ok (), c')) :
    bytes expected.length c = (.ok expected, c') := by
  rw [magic] at h
  match hbytes : bytes expected.length c with
  | (.ok found, middle) =>
    rw [hbytes] at h
    dsimp only at h
    split at h
    · rename_i hfound
      cases h
      rw [hfound]
    · cases h
  | (.error e, middle) =>
    rw [hbytes] at h
    cases h

lemma header_ok {expected : Bytes} {name : String} (h : header expected name c = (.ok (), c')) :
    c' = c.skip (expected.length + 2) := by
  obtain ⟨⟨⟩, middle, hmagic, h⟩ := exists_of_bind h
  obtain ⟨witness, middle', hwitness, h⟩ := exists_of_bind h
  obtain ⟨rfl, -, -⟩ := bytes_ok (magic_ok hmagic)
  obtain ⟨rfl, -⟩ := u16_ok hwitness
  split at h
  · cases h
  · cases h
    rw [skip_skip]

lemma tag_ok {t : SectionTag} (h : tag c = (.ok t, c')) : c' = c.skip 3 ∧ t.bytes <+: c.rest := by
  obtain ⟨b, middle, hb, hlift⟩ := exists_of_bind h
  obtain ⟨rfl, -, hprefix⟩ := bytes_ok hb
  unfold lift tagOf at hlift
  split at hlift
  · rename_i hfind
    cases hlift
    have hbytes := List.find?_some hfind
    rw [of_decide_eq_true hbytes]
    exact ⟨rfl, hprefix⟩
  · cases hlift

/-- The strings of a table are passed over up to where the table says, which is neither before the
table nor behind the data. -/
lemma skipStrings_ok (h : skipStrings c = (.ok (), c')) :
    ∃ stop, HoldsWord c.data c.position stop ∧ c.position + 4 ≤ stop ∧ stop ≤ c.data.size ∧
      c' = ⟨c.data, stop⟩ := by
  unfold skipStrings at h
  split at h
  · cases h
  · rename_i stop middle hstop
    obtain ⟨rfl, hword⟩ := u32_ok hstop
    split at h
    · cases h
    · rename_i hbounds
      cases h
      simp only [position_skip, data_skip, not_or, Nat.not_lt] at hbounds
      exact ⟨stop.toNat, hword, hbounds.1, hbounds.2, rfl⟩

/-- What every entry has shown where it was read is so all along the entries. -/
lemma timesOnto_ok {step : Read α} {done as : List α} {n size : Nat} {P : Nat → α → Prop}
    (hstep : ∀ d a d', d.data = c.data → step d = (.ok a, d') →
      d' = d.skip size ∧ P d.position a)
    (h : timesOnto step done n c = (.ok as, c')) :
    c' = c.skip (n * size) ∧ ∃ found, as = done.reverse ++ found ∧ found.length = n ∧
      ∀ i (hi : i < found.length), P (c.position + i * size) found[i] := by
  induction n generalizing c done with
  | zero =>
    cases h
    exact ⟨by simp [skip], [], by simp⟩
  | succ n ih =>
    obtain ⟨a, middle, ha, hrest⟩ := exists_of_bind h
    obtain ⟨rfl, hfirst⟩ := hstep c a middle rfl ha
    obtain ⟨hc', found, rfl, hlength, hfound⟩ := ih (c := c.skip size) hstep hrest
    refine ⟨?_, a :: found, by simp, by simp [hlength], fun i hi => ?_⟩
    · rw [hc', skip_skip, Nat.succ_mul, Nat.add_comm]
    · cases i with
      | zero => simpa using hfirst
      | succ i =>
        have hbehind := hfound i (by simpa using hi)
        rw [position_skip, Nat.add_assoc] at hbehind
        rwa [List.getElem_cons_succ, Nat.succ_mul, Nat.add_comm (i * size)]

lemma times_ok {step : Read α} {as : List α} {n size : Nat} {P : Nat → α → Prop}
    (hstep : ∀ d a d', d.data = c.data → step d = (.ok a, d') →
      d' = d.skip size ∧ P d.position a)
    (h : times n step c = (.ok as, c')) :
    c' = c.skip (n * size) ∧ as.length = n ∧
      ∀ i (hi : i < as.length), P (c.position + i * size) as[i] := by
  obtain ⟨hc', found, rfl, hlength, hfound⟩ := timesOnto_ok hstep h
  exact ⟨hc', hlength, hfound⟩

namespace Forward

lemma magic (expected : Bytes) (name : String) : (Read.magic expected name).Forward :=
  fun c _ c' h => bytes expected.length c expected c' (magic_ok h)

lemma header (expected : Bytes) (name : String) : (Read.header expected name).Forward :=
  (magic expected name).bind fun _ => u16.bind fun _ => by
    split
    · exact throw _
    · exact pure _

end Forward

end Read

end LetterToSound
