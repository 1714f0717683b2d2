import Mathlib
import LetterToSound.Proofs.Container.Fields
import LetterToSound.Proofs.Container.Sizes

/-!
# Writing and reading are dual

Whatever sections are written, one after the other and each with values of any kinds, a section can be
ended just if its magic and its values have the size with which it was begun. If all sections can be
ended, a cursor that reads values of the same kinds in the same order reads those that were written.
This needs no database around it: a reference is written before its string has a place in the data,
and it is right because the size of the section is.
-/

namespace LetterToSound

open Cursor

namespace Cursor

variable {c : Cursor} {xs ys : Bytes}

lemma position_add_le_of_le (hle : c.position ≤ c.data.size) (h : c.rest = xs ++ ys) :
    c.position + xs.length ≤ c.data.size := by
  have hlength := congrArg List.length h
  simp only [rest, List.length_drop, Array.length_toList, List.length_append] at hlength
  omega

/-- Bytes are taken where they stand, if only the cursor is not out of the data. -/
lemma bytes_eq_of_le (hle : c.position ≤ c.data.size) (h : c.rest = xs ++ ys) :
    Read.bytes xs.length c = (.ok xs, c.skip xs.length) := by
  rw [Read.bytes, if_pos (position_add_le_of_le hle h), extract_eq h, skip]

end Cursor

namespace Datum

/-- A value is read by a cursor that stands at `c` before and at `c'` behind it. A string in its place is
read as that many bytes and a zero byte. -/
def ReadBack (c c' : Cursor) : Datum → Prop
  | u8 v => Read.u8 c = (.ok v, c')
  | u16 v => Read.u16 c = (.ok v, c')
  | u32 v => Read.u32 c = (.ok v, c')
  | u64 v => Read.u64 c = (.ok v, c')
  | single v => Read.single c = (.ok v, c')
  | fixed v =>
    Read.fixed c = (.ok (FixedPoint.decode (FixedPoint.encode v).1 (FixedPoint.encode v).2), c')
  | inline s => Read.bytes (s.length + 1) c = (.ok (s ++ [0]), c')
  | pooled s => Read.reference c = (.ok s, c')

/-- Values are read one after the other. -/
def AllReadBack : List Datum → Cursor → Cursor → Prop
  | [], c, c' => c' = c
  | d :: rest, c, c' => ∃ c₁, d.ReadBack c c₁ ∧ AllReadBack rest c₁ c'

variable {c : Cursor} {place : Bytes → Nat} {ys : Bytes}

/-- A value is read where its bytes stand; if it is a reference, its string has to stand at its place. -/
lemma readBack {d : Datum} (hs : ∀ s, d = pooled s → Refers c.data place s ∧ 0 ∉ s)
    (h : c.rest = d.bytes place ++ ys) : d.ReadBack c (c.skip (d.bytes place).length) := by
  cases d with
  | u8 v => exact Read.Takes.u8 v c ys rfl h
  | u16 v => exact Read.Takes.u16 v c ys rfl h
  | u32 v => exact Read.Takes.u32 v c ys rfl h
  | u64 v => exact Read.Takes.u64 v c ys rfl h
  | single v => exact Read.Takes.single v c ys rfl h
  | fixed v => exact Read.Takes.fixed _ _ c ys rfl h
  | inline s =>
    have hbytes := Read.bytes_eq h (by simp [bytes])
    rwa [length_bytes] at hbytes ⊢
  | pooled s =>
    obtain ⟨hrefers, hzero⟩ := hs s rfl
    have hreference := Read.reference_eq hrefers h
    rwa [Bytes.cut_of_not_mem hzero] at hreference

lemma allReadBack {body : List Datum}
    (hs : ∀ s, pooled s ∈ body → Refers c.data place s ∧ 0 ∉ s)
    (h : c.rest = body.flatMap (bytes place) ++ ys) :
    AllReadBack body c (c.skip (body.flatMap (bytes place)).length) := by
  induction body generalizing c with
  | nil => rfl
  | cons d rest ih =>
    rw [List.flatMap_cons, List.append_assoc] at h
    have hfirst := readBack (fun s hd => hs s (hd ▸ List.mem_cons_self)) h
    have hrest := ih (c := c.skip (d.bytes place).length)
      (fun s hmem => hs s (List.mem_cons_of_mem d hmem)) (rest_skip h)
    refine ⟨_, hfirst, ?_⟩
    rwa [skip_skip, ← List.length_append, ← List.flatMap_cons] at hrest

end Datum

/-- A string table is read: its tag, the offset behind its last string, and its strings up to there. -/
def Pool.ReadBack (strings : List Bytes) (c c' : Cursor) : Prop :=
  ∃ c₁ c₂ stop, Read.bytes 3 c = (.ok SectionTag.strings.bytes, c₁) ∧
    Read.u32 c₁ = (.ok stop, c₂) ∧ stop.toNat = c'.position ∧
    Read.bytes (Pool.bytes strings).length c₂ = (.ok (Pool.bytes strings), c')

namespace SectionPlan

/-- A section is read: its magic, its values, and its string table if it has one. -/
def ReadBack (plan : SectionPlan) (c c' : Cursor) : Prop :=
  ∃ c₁ c₂, Read.bytes plan.magic.length c = (.ok plan.magic, c₁) ∧
    Datum.AllReadBack plan.body c₁ c₂ ∧
    if plan.pooling then Pool.ReadBack plan.strings c₂ c' else c' = c₂

/-- Sections are read one after the other. -/
def AllReadBack : List SectionPlan → Cursor → Cursor → Prop
  | [], c, c' => c' = c
  | plan :: rest, c, c' => ∃ c₁, plan.ReadBack c c₁ ∧ AllReadBack rest c₁ c'

/-- A section as anyone may write it: references only where there is a string table, and only to strings
without a zero byte. -/
structure Plain (plan : SectionPlan) : Prop where
  excess : plan.excess = none
  pooling : plan.pooling = true ∨ plan.body.filterMap Datum.string? = []
  zero : ∀ s ∈ plan.body.filterMap Datum.string?, 0 ∉ s

/-- The room that a section takes by what is written: its magic, its values and its string table. -/
def occupied (plan : SectionPlan) : Nat :=
  plan.magic.length + (plan.body.map Datum.size).sum +
    if plan.pooling then Layout.stringTableHeaderSize + (Pool.bytes plan.strings).length else 0

lemma Exact.occupied_eq {plan : SectionPlan} (h : plan.Exact) : plan.occupied = plan.declared := by
  rw [occupied, declared, h.size]

lemma Plain.strings {plan : SectionPlan} (h : plan.Plain) :
    plan.pooling = true ∨ plan.strings = [] := h.pooling.imp_right strings_eq_nil

section Reading

variable {c : Cursor} {ys : Bytes}

lemma readBack_stringTable {start : Nat} {strings : List Bytes} (hsize : c.data.size < UInt32.size)
    (hle : c.position ≤ c.data.size) (hstart : start = c.position + Layout.stringTableHeaderSize)
    (h : c.rest = stringTable start strings ++ ys) :
    Pool.ReadBack strings c (c.skip (stringTable start strings).length) := by
  have hend := position_add_le_of_le hle h
  have hlength := length_stringTable start strings
  rw [stringTable, List.append_assoc, List.append_assoc] at h
  have hbehind := rest_skip h
  have hstrings := rest_skip_encode hbehind
  have hfits : start + (Pool.bytes strings).length < UInt32.size := by omega
  refine ⟨_, _, UInt32.ofNat (start + (Pool.bytes strings).length), bytes_eq_of_le hle h,
    Read.u32_eq hbehind hfits, ?_, ?_⟩
  · rw [UInt32.toNat_ofNat_of_lt' hfits, position_skip, hlength, hstart, Nat.add_assoc]
  · have hcursor : c.skip (stringTable start strings).length =
        ((c.skip SectionTag.strings.bytes.length).skip 4).skip (Pool.bytes strings).length := by
      rw [skip_skip, skip_skip, hlength, SectionTag.length_bytes, ← Nat.add_assoc]
      rfl
    rw [hcursor]
    refine bytes_eq_of_le ?_ hstrings
    rw [hlength, Layout.stringTableHeaderSize] at hend
    simp only [position_skip, data_skip, SectionTag.length_bytes]
    omega

/-- A section of the size that its plan says is read where it stands. -/
lemma readBack {plan : SectionPlan} (hexact : plan.Exact) (hplain : plan.Plain)
    (hsize : c.data.size < UInt32.size) (hle : c.position ≤ c.data.size)
    (h : c.rest = plan.bytes c.position ++ ys) :
    plan.ReadBack c (c.skip (plan.bytes c.position).length) := by
  have hrefers (s : Bytes) (hs : Datum.pooled s ∈ plan.body) :
      Refers c.data (Pool.place (plan.poolStart c.position) plan.strings) s ∧ 0 ∉ s := by
    have hmem : s ∈ plan.body.filterMap Datum.string? := List.mem_filterMap.mpr ⟨_, hs, rfl⟩
    have hpooling := hplain.pooling.resolve_right fun hnone => by simp [hnone] at hmem
    exact ⟨refers_of_rest hexact hpooling hsize h (mem_strings hs), hplain.zero s hmem⟩
  generalize htable : (if plan.pooling then stringTable (plan.poolStart c.position) plan.strings
    else []) = table
  have hbytes : plan.bytes c.position = plan.magic ++ (plan.values c.position ++ table) :=
    htable ▸ rfl
  have hcursor : c.skip (plan.bytes c.position).length =
      ((c.skip plan.magic.length).skip (plan.values c.position).length).skip table.length := by
    rw [hbytes, skip_skip, skip_skip, List.length_append, List.length_append]
  rw [hbytes, List.append_assoc, List.append_assoc] at h
  have hvalues := rest_skip h
  have hbehind := rest_skip hvalues
  have hin : ((c.skip plan.magic.length).skip (plan.values c.position).length).position ≤
      c.data.size := position_add_le_of_le (position_add_le_of_le hle h) hvalues
  refine ⟨_, _, bytes_eq_of_le hle h, Datum.allReadBack hrefers hvalues, ?_⟩
  rw [hcursor]
  cases hpooling : plan.pooling with
  | false =>
    rw [hpooling] at htable
    rw [← htable]
    rfl
  | true =>
    rw [hpooling, if_pos rfl] at htable
    rw [← htable] at hbehind ⊢
    refine readBack_stringTable hsize hin ?_ hbehind
    refine (poolStart_eq hexact hpooling c.position).trans ?_
    rw [List.length_append, ← Nat.add_assoc]
    rfl

lemma allReadBack {plans : List SectionPlan} (hexact : ∀ plan ∈ plans, plan.Exact)
    (hplain : ∀ plan ∈ plans, plan.Plain) (hsize : c.data.size < UInt32.size)
    (hle : c.position ≤ c.data.size) (h : c.rest = allBytes c.position plans) :
    AllReadBack plans c (c.skip (allBytes c.position plans).length) := by
  induction plans generalizing c with
  | nil => rfl
  | cons plan rest ih =>
    obtain ⟨hexact, hexacts⟩ := List.forall_mem_cons.mp hexact
    obtain ⟨hplain, hplains⟩ := List.forall_mem_cons.mp hplain
    rw [allBytes] at h
    have hfirst := readBack hexact hplain hsize hle h
    have hrest := ih (c := c.skip (plan.bytes c.position).length) hexacts hplains hsize
      (position_add_le_of_le hle h) (rest_skip h)
    refine ⟨_, hfirst, ?_⟩
    rwa [skip_skip, position_skip, ← List.length_append] at hrest

end Reading

end SectionPlan

namespace Writer

variable {w w' : Writer}

/-- What sections take that have been written without a limit is what their plans say, and the sink is
still without a limit. -/
lemma written_of_emit {plans : List SectionPlan} (hplain : ∀ plan ∈ plans, plan.Plain)
    (h : emit plans (empty none) = (.ok (), w)) :
    w.Ready ∧ w.sink.limit = none ∧ w.written = (plans.map SectionPlan.declared).sum ∧
      w.written = (plans.map SectionPlan.occupied).sum := by
  obtain ⟨hexact, hw, hreceived⟩ := emit_ok (ready_empty none) h
  have hlength := SectionPlan.length_allBytes hexact 0
  have hwritten : w.written = (SectionPlan.allBytes 0 plans).length := by
    rw [written, ← Array.length_toList, hreceived]
    rfl
  have hfits : (empty none).written + (SectionPlan.allBytes 0 plans).length < UInt32.size := by
    rw [← hwritten, hw.written]
    exact lt_of_eq_of_lt (Nat.zero_add _) hw.fits
  obtain ⟨w', hemit, hlimit⟩ := emit_succeeds rfl (ready_empty none) hexact
    (fun plan hplan => (hplain plan hplan).strings) hfits
  rw [h] at hemit
  cases hemit
  have hsame : plans.map SectionPlan.occupied = plans.map SectionPlan.declared :=
    List.map_congr_left fun plan hplan => (hexact plan hplan).occupied_eq
  exact ⟨hw, hlimit, hwritten.trans hlength, hsame ▸ hwritten.trans hlength⟩

/-- A section that has been begun and filled can be ended just if its magic and its values have the size
that its plan says. -/
lemma exists_endSection_iff {plan : SectionPlan} {w₁ w₂ : Writer} (hplain : plan.Plain)
    (hw : w.Ready) (hlimit : w₂.sink.limit = none)
    (hbegin : beginSection plan.magic plan.size plan.pooling w = (.ok (), w₁))
    (hbody : putAll plan.body w₁ = (.ok (), w₂)) :
    (∃ w₃, endSection w₂ = (.ok (), w₃)) ↔
      plan.magic.length + (plan.body.map Datum.size).sum = plan.size.toNat := by
  constructor
  · rintro ⟨w₃, hend⟩
    have hput : putSection plan w = (.ok none, w₃) := by
      rw [putSection, Write.bind_eq_of_ok _ hbegin, Write.bind_eq_of_ok _ hbody, hplain.excess]
      exact Write.bind_eq_of_ok _ hend
    exact (putSection_ok hw hput).1.size
  · intro hsize
    have hw₂ := (putAll_ok (pools_of_beginSection hw hbegin) hbody).1
    obtain ⟨_, w₃, hend, -⟩ := endSection_succeeds hlimit hw₂ (by
      rw [offset_of_body hw hplain.strings hbegin hbody, written_of_body hw hbegin hbody, hsize]
      rfl)
    exact ⟨w₃, hend⟩

/-- Writing and reading sections are dual, whatever their magics, their sizes and their values are. Where
the sections before one have been written, it can be begun and filled, what is written for it with its
strings fits in 32 bits, and it can be ended just if its magic and its values have its size. If all have
been written, a cursor finds them in the data with all their values, up to the end of the data. -/
theorem run_dual {plans : List SectionPlan} (hplain : ∀ plan ∈ plans, plan.Plain)
    (hdeclared : (plans.map SectionPlan.declared).sum < UInt32.size)
    (hoccupied : (plans.map SectionPlan.occupied).sum < UInt32.size) :
    (∀ before plan after w, plans = before ++ plan :: after →
      emit before (empty none) = (.ok (), w) →
      ∃ w₁ w₂, beginSection plan.magic plan.size plan.pooling w = (.ok (), w₁) ∧
        putAll plan.body w₁ = (.ok (), w₂) ∧ w.written + plan.occupied < UInt32.size ∧
        ((∃ w₃, endSection w₂ = (.ok (), w₃)) ↔
          plan.magic.length + (plan.body.map Datum.size).sum = plan.size.toNat)) ∧
      ∀ data, run none plans = (.ok (), data) →
        ∃ c, SectionPlan.AllReadBack plans (Cursor.start data) c ∧ c.position = data.size := by
  constructor
  · rintro before plan after w rfl hemit
    rw [List.map_append, List.sum_append, List.map_cons, List.sum_cons] at hdeclared hoccupied
    have hbefore : ∀ plan ∈ before, plan.Plain := fun _ hmem =>
      hplain _ (List.mem_append_left _ hmem)
    have hthis : plan.Plain := hplain plan (by simp)
    obtain ⟨hw, hlimit, hwritten, hwritten'⟩ := written_of_emit hbefore hemit
    obtain ⟨w₁, w₂, hbegin, hbody, hlimit₂⟩ := body_succeeds hlimit hw hthis.strings (by omega)
    exact ⟨w₁, w₂, hbegin, hbody, by omega, exists_endSection_iff hthis hw hlimit₂ hbegin hbody⟩
  · intro data hrun
    obtain ⟨hdata, hsize, hexact⟩ := run_ok hrun
    have hrest : (Cursor.start data).rest = SectionPlan.allBytes 0 plans := hdata
    refine ⟨_, SectionPlan.allReadBack hexact hplain hsize (Nat.zero_le _) hrest, ?_⟩
    rw [position_skip, ← Array.length_toList, hdata]
    exact Nat.zero_add _

/-- A section with a string table in which one string is used twice, and a section without magic and
without a table. -/
def dualPlans : List SectionPlan := [
  ⟨Bytes.ofString "AB", 16, true,
    [.pooled (Bytes.ofString "x"), .pooled (Bytes.ofString "yz"), .pooled (Bytes.ofString "x"),
      .u16 513], none⟩,
  ⟨[], 15, false, [.inline (Bytes.ofString "hi"), .u64 7, .single Single.one], none⟩]

theorem run_dual_dualPlans : (∀ plan ∈ dualPlans, plan.Plain) ∧
    (dualPlans.map SectionPlan.declared).sum < UInt32.size ∧
    (dualPlans.map SectionPlan.occupied).sum < UInt32.size ∧
    ∃ data c, run none dualPlans = (.ok (), data) ∧
      SectionPlan.AllReadBack dualPlans (Cursor.start data) c ∧ c.position = data.size := by
  have hplain : ∀ plan ∈ dualPlans, plan.Plain := by
    rw [dualPlans, List.forall_mem_cons, List.forall_mem_singleton]
    exact ⟨⟨rfl, by decide, by decide⟩, ⟨rfl, by decide, by decide⟩⟩
  have hdeclared : (dualPlans.map SectionPlan.declared).sum < UInt32.size := by decide
  have hoccupied : (dualPlans.map SectionPlan.occupied).sum < UInt32.size := by decide
  obtain ⟨data, hrun⟩ : ∃ data, run none dualPlans = (.ok (), data) :=
    run_succeeds (by decide) (by decide) (by decide)
  obtain ⟨c, hread, hend⟩ := (run_dual hplain hdeclared hoccupied).2 data hrun
  exact ⟨hplain, hdeclared, hoccupied, data, c, hrun, hread, hend⟩

end Writer

end LetterToSound
