import Mathlib
import LetterToSound.Text.Pieces

/-!
# Cutting at separators, and places

A cut is undone by joining the pieces again. It loses nothing but the separators, so what holds piece by
piece can be proved with one piece in front of what it holds of. Places of items move with their start.
-/

namespace LetterToSound.Text

section Cut

variable {α : Type} [DecidableEq α] {separator a : α} {items : List α}

/-- Items without a separator are one piece. -/
lemma cutAt_of_not_mem (h : separator ∉ items) : cutAt separator items = [items] := by
  induction items with
  | nil => rfl
  | cons a items ih =>
    have hcut := ih fun hmem => h (List.mem_cons_of_mem a hmem)
    have ha : a ≠ separator := fun ha => h (ha ▸ List.mem_cons_self)
    rw [cutAt] at hcut
    rw [cutAt, List.foldr_cons, hcut]
    simp [ha]

/-- What holds of one piece, and of a piece in front of all that it holds of, holds of everything that
is cut at a separator. -/
@[elab_as_elim]
lemma piece_induction (separator : α) {motive : List α → Prop}
    (last : ∀ piece, separator ∉ piece → motive piece)
    (cons : ∀ piece rest, separator ∉ piece → motive rest → motive (piece ++ separator :: rest))
    (items : List α) : motive items := by
  induction hcount : items.count separator generalizing items with
  | zero => exact last items (List.count_eq_zero.mp hcount)
  | succ n ih =>
    have hmem : separator ∈ items := List.count_pos_iff.mp (by omega)
    obtain ⟨piece, rest, rfl, hpiece⟩ := List.eq_append_cons_of_mem hmem
    refine cons piece rest hpiece (ih rest ?_)
    simpa [List.count_eq_zero_of_not_mem hpiece] using hcount

/-- A separator ends the first piece. -/
lemma cutAt_append {piece : List α} (h : separator ∉ piece) (rest : List α) :
    cutAt separator (piece ++ separator :: rest) = piece :: cutAt separator rest := by
  rw [cutAt_append_separator, cutAt_of_not_mem h, List.singleton_append]

/-- There is one piece more than there are separators. -/
lemma length_cutAt (separator : α) (items : List α) :
    (cutAt separator items).length = items.count separator + 1 := by
  induction items using piece_induction separator with
  | last piece hpiece =>
    rw [cutAt_of_not_mem hpiece, List.count_eq_zero_of_not_mem hpiece, List.length_singleton]
  | cons piece rest hpiece ih =>
    rw [cutAt_append hpiece, List.length_cons, ih, List.count_append,
      List.count_eq_zero_of_not_mem hpiece, List.count_cons_self, Nat.zero_add]

/-- A piece holds nothing that the whole does not hold. -/
lemma mem_of_mem_cutAt {piece : List α} (hpiece : piece ∈ cutAt separator items) (ha : a ∈ piece) :
    a ∈ items := by
  induction items using piece_induction separator with
  | last first hfirst =>
    rw [cutAt_of_not_mem hfirst, List.mem_singleton] at hpiece
    exact hpiece ▸ ha
  | cons first rest hfirst ih =>
    rw [cutAt_append hfirst] at hpiece
    rcases List.mem_cons.mp hpiece with rfl | hpiece
    · exact List.mem_append_left _ ha
    · exact List.mem_append_right _ (List.mem_cons_of_mem _ (ih hpiece))

/-- What is no separator is in one of the pieces. -/
lemma exists_mem_cutAt (h : a ∈ items) (hne : a ≠ separator) :
    ∃ piece ∈ cutAt separator items, a ∈ piece := by
  induction items using piece_induction separator with
  | last first hfirst => exact ⟨first, by simp [cutAt_of_not_mem hfirst], h⟩
  | cons first rest hfirst ih =>
    rw [cutAt_append hfirst]
    rcases List.mem_append.mp h with h | h
    · exact ⟨first, List.mem_cons_self, h⟩
    · obtain ⟨piece, hpiece, ha⟩ := ih ((List.mem_cons.mp h).resolve_left hne)
      exact ⟨piece, List.mem_cons_of_mem _ hpiece, ha⟩

/-- Pieces that are joined by a separator which none of them holds are cut apart again. -/
lemma cutAt_intercalate {pieces : List (List α)} (hne : pieces ≠ [])
    (h : ∀ piece ∈ pieces, separator ∉ piece) :
    cutAt separator ([separator].intercalate pieces) = pieces := by
  induction pieces with
  | nil => exact absurd rfl hne
  | cons piece rest ih =>
    obtain ⟨hpiece, hrest⟩ := List.forall_mem_cons.mp h
    cases rest with
    | nil => rw [List.intercalate_singleton, cutAt_of_not_mem hpiece]
    | cons next rest =>
      rw [List.intercalate_cons_cons, List.append_assoc, List.singleton_append, cutAt_append hpiece,
        ih (List.cons_ne_nil _ _) hrest]

omit [DecidableEq α] in
/-- What is joined is of the separator or of one of the pieces. -/
lemma mem_of_mem_intercalate {between : List α} {pieces : List (List α)}
    (h : a ∈ between.intercalate pieces) : a ∈ between ∨ ∃ piece ∈ pieces, a ∈ piece := by
  induction pieces with
  | nil => simp at h
  | cons piece rest ih =>
    cases rest with
    | nil =>
      rw [List.intercalate_singleton] at h
      exact .inr ⟨piece, List.mem_cons_self, h⟩
    | cons next rest =>
      rw [List.intercalate_cons_cons, List.append_assoc, List.mem_append, List.mem_append] at h
      rcases h with h | h | h
      · exact .inr ⟨piece, List.mem_cons_self, h⟩
      · exact .inl h
      · exact (ih h).imp_right fun ⟨other, hother, ha⟩ => ⟨other, List.mem_cons_of_mem _ hother, ha⟩

end Cut

section Place

variable {α : Type} {width : α → Nat}

lemma mem_of_mem_place {start : Nat} {items : List α} {x : Nat × α}
    (h : x ∈ place width start items) : x.2 ∈ items := by
  induction items generalizing start with
  | nil => cases h
  | cons a items ih =>
    rw [place_cons] at h
    rcases List.mem_cons.mp h with rfl | h
    · exact List.mem_cons_self
    · exact List.mem_cons_of_mem a (ih h)

/-- Items behind others start where those end. -/
lemma place_append (start : Nat) (items behind : List α) :
    place width start (items ++ behind) =
      place width start items ++ place width (start + (items.map width).sum) behind := by
  induction items generalizing start with
  | nil => simp
  | cons a items ih =>
    rw [List.cons_append, place_cons, place_cons, ih, List.map_cons, List.sum_cons, ← Nat.add_assoc]
    rfl

/-- Items that start further on have their places that much further on. -/
lemma place_add (width : α → Nat) (k start : Nat) (items : List α) :
    place width (k + start) items = (place width start items).map (Prod.map (k + ·) id) := by
  induction items generalizing start with
  | nil => rfl
  | cons a items ih => simp [place_cons, Nat.add_assoc, ih]

end Place

end LetterToSound.Text
