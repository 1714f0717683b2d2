import Mathlib
import LetterToSound.Proofs.Container.Evidence

/-!
# The way through the sections

A walk through the sections of a database passes one section after the other. Each moves the cursor on
and none moves it out of the data, whatever the bytes are. So a walk passes no more sections than there
are bytes, and it ends: at the end of the data, or at a section that cannot be read.
-/

namespace LetterToSound.Walk

open Cursor

variable {α β η : Type} {body : SectionTag → Read α} {forward : ∀ tag, (body tag).Forward}
  {c c' c'' : Cursor} {a : α} {as : List α}

/-- The sections that a walk passes on its way from one cursor to another. -/
inductive Passes (body : SectionTag → Read α) : Cursor → List α → Cursor → Prop
  | stop (c : Cursor) : Passes body c [] c
  | read {c c' c'' : Cursor} {a : α} {as : List α} (hin : c.position < c.data.size)
      (h : readSection body c = (.ok a, c')) (rest : Passes body c' as c'') :
      Passes body c (a :: as) c''

namespace Passes

/-- With every section the walk comes on by at least a byte, and it stays in the data. -/
lemma progress (forward : ∀ tag, (body tag).Forward) (h : Passes body c as c') :
    c'.data = c.data ∧ c.position + as.length ≤ c'.position ∧
      (c.position ≤ c.data.size → c'.position ≤ c.data.size) := by
  induction h with
  | stop c => exact ⟨rfl, Nat.le_refl _, id⟩
  | read hin hread rest ih =>
    obtain ⟨hdata, hlt, hle⟩ := position_readSection forward hread
    obtain ⟨hdata', hlength, hle'⟩ := ih
    rw [hdata] at hdata' hle'
    rw [List.length_cons]
    exact ⟨hdata', by omega, fun _ => hle' hle⟩

/-- A walk that has come to the end of the data has read all sections. -/
lemma sections_eq (h : Passes body c as c') (hend : c'.data.size ≤ c'.position) :
    sections body forward c = .ok as := by
  induction h with
  | stop c => exact sections_of_end hend
  | read hin hread rest ih =>
    rw [sections_of_ok hin hread, ih hend]
    rfl

/-- A walk that comes to a section that cannot be read has failed with it. -/
lemma sections_eq_error {e : LoadError} (h : Passes body c as c')
    (hin : c'.position < c'.data.size) (hread : readSection body c' = (.error e, c'')) :
    sections body forward c = .error e := by
  induction h with
  | stop c => exact sections_of_error hin (by rw [hread])
  | read hin' hread' rest ih =>
    rw [sections_of_ok hin' hread', ih hin hread]
    rfl

end Passes

/-- Every walk comes to the end of the data or to a section that cannot be read. -/
lemma exists_passes (forward : ∀ tag, (body tag).Forward) (c : Cursor) :
    ∃ as c', Passes body c as c' ∧ (c'.data.size ≤ c'.position ∨
      c'.position < c'.data.size ∧ ∃ e c'', readSection body c' = (.error e, c'')) := by
  induction hn : c.data.size - c.position using Nat.strong_induction_on generalizing c with
  | _ n ih =>
    subst hn
    by_cases hend : c.data.size ≤ c.position
    · exact ⟨[], c, .stop c, .inl hend⟩
    have hin : c.position < c.data.size := Nat.lt_of_not_le hend
    match hread : readSection body c with
    | (.error e, c'') => exact ⟨[], c, .stop c, .inr ⟨hin, e, c'', hread⟩⟩
    | (.ok a, middle) =>
      obtain ⟨hdata, hlt, hle⟩ := position_readSection forward hread
      have hless : middle.data.size - middle.position < c.data.size - c.position := by
        rw [hdata]
        omega
      obtain ⟨as, c', hpasses, hends⟩ := ih _ hless middle rfl
      exact ⟨a :: as, c', .read hin hread hpasses, hends⟩

/-- The sections that are read to the end of the data are those that the walk passes. -/
theorem exists_passes_of_sections (h : sections body forward c = .ok as) :
    ∃ c', Passes body c as c' ∧ c'.data.size ≤ c'.position := by
  obtain ⟨found, c', hpasses, hend | ⟨hin, e, c'', hread⟩⟩ := exists_passes forward c
  · obtain rfl : found = as := Except.ok.inj ((hpasses.sections_eq hend).symm.trans h)
    exact ⟨c', hpasses, hend⟩
  · cases (hpasses.sections_eq_error hin hread).symm.trans h

/-- A way of loading a database from its bytes: a header, then a walk through the sections, and then
what is made of the two. It makes progress and ends. -/
structure Progresses (readHeader : Read η) (body : SectionTag → Read α)
    (make : η → List α → Except LoadError β) (data : Array UInt8) (result : Except LoadError β) :
    Prop where
  /-- Wherever the walk has come to before the end, the next section fails to be read, or it moves the
  cursor on and not out of the data. -/
  step : ∀ header c as c', readHeader (Cursor.start data) = (.ok header, c) →
    Passes body c as c' → c'.position < data.size →
    (∃ e c'', readSection body c' = (.error e, c'')) ∨
      ∃ a c'', readSection body c' = (.ok a, c'') ∧ c''.data = data ∧
        c'.position < c''.position ∧ c''.position ≤ data.size
  /-- The walk stays in the data and passes at most as many sections as there are bytes. -/
  count : ∀ header c as c', readHeader (Cursor.start data) = (.ok header, c) →
    Passes body c as c' → c'.position ≤ data.size ∧ as.length ≤ data.size
  /-- The strings of a section are passed over as far as their table says, and that is neither back nor
  out of the data. -/
  strings : ∀ c a c', body .strings c = (.ok a, c') → ∃ stop, HoldsWord c.data c.position stop ∧
    c.position + 4 ≤ stop ∧ stop ≤ c.data.size ∧ c' = ⟨c.data, stop⟩
  /-- Loading ends, in the header, at a section that cannot be read, or at the end of the data. -/
  ends : (∃ e c, readHeader (Cursor.start data) = (.error e, c) ∧ result = .error e) ∨
    ∃ header c as c', readHeader (Cursor.start data) = (.ok header, c) ∧ Passes body c as c' ∧
      ((c'.position < data.size ∧
          ∃ e c'', readSection body c' = (.error e, c'') ∧ result = .error e) ∨
        c'.position = data.size ∧ result = make header as)

/-- Behind a header that has been read, a walk stays in the data and passes no more sections than bytes. -/
lemma within_of_passes {readHeader : Read η} {data : Array UInt8} {header : η}
    (hheader : readHeader.Forward) (forward : ∀ tag, (body tag).Forward)
    (hread : readHeader (Cursor.start data) = (.ok header, c)) (hpasses : Passes body c as c') :
    c'.data = data ∧ c'.position ≤ data.size ∧ as.length ≤ c'.position := by
  obtain ⟨rfl, -, hle⟩ := hheader _ _ _ hread
  obtain ⟨hdata, hlength, hle'⟩ := hpasses.progress forward
  exact ⟨hdata, hle' (hle (Nat.zero_le _)), by omega⟩

/-- Whatever reads a header and then goes through the sections makes progress. -/
theorem progresses_of_forward {readHeader : Read η} {make : η → List α → Except LoadError β}
    {data : Array UInt8} {result : Except LoadError β} (found : α) (hheader : readHeader.Forward)
    (forward : ∀ tag, (body tag).Forward)
    (hstrings : body .strings = do Read.skipStrings; return found)
    (hresult : result = match readHeader (Cursor.start data) with
      | (.error e, _) => .error e
      | (.ok header, c) => sections body forward c >>= make header) :
    Progresses readHeader body make data result := by
  constructor
  · intro header c as c' hread hpasses hin
    obtain ⟨hdata, -, -⟩ := within_of_passes hheader forward hread hpasses
    match hnext : readSection body c' with
    | (.error e, c'') => exact .inl ⟨e, c'', rfl⟩
    | (.ok a, c'') =>
      obtain ⟨hdata', hlt, hle⟩ := position_readSection forward hnext
      rw [hdata] at hdata' hle
      exact .inr ⟨a, c'', rfl, hdata', hlt, hle⟩
  · intro header c as c' hread hpasses
    obtain ⟨-, hle, hlength⟩ := within_of_passes hheader forward hread hpasses
    exact ⟨hle, hlength.trans hle⟩
  · intro c a c' hread
    rw [hstrings] at hread
    obtain ⟨⟨⟩, middle, hskip, hpure⟩ := Read.exists_of_bind hread
    cases hpure
    exact Read.skipStrings_ok hskip
  · match hread : readHeader (Cursor.start data) with
    | (.error e, c) =>
      rw [hread] at hresult
      exact .inl ⟨e, c, rfl, hresult⟩
    | (.ok header, c) =>
      rw [hread] at hresult
      dsimp only at hresult
      obtain ⟨as, c', hpasses, hends⟩ := exists_passes forward c
      obtain ⟨hdata, hle, -⟩ := within_of_passes hheader forward hread hpasses
      rw [hdata] at hends
      refine .inr ⟨header, c, as, c', rfl, hpasses, ?_⟩
      rcases hends with hend | ⟨hin, e, c'', hnext⟩
      · have hsections : sections body forward c = .ok as :=
          hpasses.sections_eq (by rw [hdata]; exact hend)
        rw [hsections] at hresult
        exact .inr ⟨Nat.le_antisymm hle hend, hresult⟩
      · have hsections : sections body forward c = .error e :=
          hpasses.sections_eq_error (by rw [hdata]; exact hin) hnext
        rw [hsections] at hresult
        exact .inl ⟨hin, e, c'', hnext, hresult⟩

end LetterToSound.Walk
