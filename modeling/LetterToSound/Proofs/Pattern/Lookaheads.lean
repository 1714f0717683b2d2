import Mathlib
import LetterToSound.Proofs.Pattern.Grammar

/-!
# What stored patterns ask for

A list of features between braces only asks for a phoneme where it stands in a right context, which
goes from one parenthesis to the next. Every list that an accepted pattern asks for can be read; and
cutting a pattern off makes it ask for nothing new, since a list without its closing brace is none.
-/

namespace LetterToSound.StoredPattern

open Pattern

/-- The lists of features that bytes of a pattern ask for; `inside` tells whether they start in a right
context. -/
def lookaheads (inside : Bool) : Bytes → List Bytes
  | [] => []
  | b :: rest =>
    if b = rightMark then lookaheads true rest
    else if b = leftMark then lookaheads false rest
    else if inside = true ∧ b = openLookahead then
      match _h : Explicit.splitGroup? rest with
      | some (list, tail) => list :: lookaheads inside tail
      | none => lookaheads inside rest
    else lookaheads inside rest
termination_by bytes => bytes.length
decreasing_by
  · exact Nat.lt_succ_self _
  · exact Nat.lt_succ_self _
  · exact Nat.lt_succ_of_lt (Explicit.length_splitGroup?_lt _h)
  · exact Nat.lt_succ_self _
  · exact Nat.lt_succ_self _

/-- The lists of features that a stored pattern asks for. -/
def asked (pattern : Bytes) : List Bytes := lookaheads false (body pattern)

section Lookaheads

variable {inside : Bool} {b : UInt8} {bytes rest list tail : Bytes}

@[simp] lemma lookaheads_nil : lookaheads inside [] = [] := by rw [lookaheads]

lemma lookaheads_rightMark : lookaheads inside (rightMark :: rest) = lookaheads true rest := by
  rw [lookaheads, if_pos rfl]

lemma lookaheads_leftMark : lookaheads inside (leftMark :: rest) = lookaheads false rest := by
  rw [lookaheads, if_neg (by decide), if_pos rfl]

lemma lookaheads_list (h : Explicit.splitGroup? rest = some (list, tail)) :
    lookaheads true (openLookahead :: rest) = list :: lookaheads true tail := by
  rw [lookaheads, if_neg (by decide), if_neg (by decide), if_pos ⟨rfl, rfl⟩]
  split <;> simp_all

/-- A byte that neither is a mark nor starts a list is passed over. -/
lemma lookaheads_pass (hright : b ≠ rightMark) (hleft : b ≠ leftMark)
    (hopen : inside = true → b = openLookahead → Explicit.splitGroup? rest = none) :
    lookaheads inside (b :: rest) = lookaheads inside rest := by
  rw [lookaheads, if_neg hright, if_neg hleft]
  split
  · rename_i h
    have hnone := hopen h.1 h.2
    split <;> simp_all
  · rfl

lemma lookaheads_append_of_plain
    (h : ∀ b ∈ bytes, b ≠ leftMark ∧ b ≠ rightMark ∧ b ≠ openLookahead) :
    lookaheads inside (bytes ++ rest) = lookaheads inside rest := by
  induction bytes with
  | nil => rfl
  | cons b bytes ih =>
    obtain ⟨⟨hleft, hright, hopen⟩, hbytes⟩ := List.forall_mem_cons.mp h
    rw [List.cons_append, lookaheads_pass hright hleft fun _ heq => absurd heq hopen, ih hbytes]

/-- Nothing is asked for outside of right contexts. -/
lemma lookaheads_outside (h : rightMark ∉ bytes) : lookaheads false bytes = [] := by
  induction bytes with
  | nil => exact lookaheads_nil
  | cons b bytes ih =>
    have hbytes := ih fun hmem => h (List.mem_cons_of_mem b hmem)
    by_cases hleft : b = leftMark
    · rw [hleft, lookaheads_leftMark, hbytes]
    · rw [lookaheads_pass (fun heq => h (heq ▸ List.mem_cons_self)) hleft (by simp), hbytes]

end Lookaheads

section Prefixes

variable {bytes rest list tail : Bytes}

lemma not_mem_of_splitGroup? (h : Explicit.splitGroup? bytes = none) : closeLookahead ∉ bytes := by
  intro hmem
  obtain ⟨before, after, rfl, hbefore⟩ := List.eq_append_cons_of_mem hmem
  unfold Explicit.splitGroup? at h
  rw [show Explicit.closeGroup = closeLookahead from rfl,
    SourcePattern.dropWhile_ne after hbefore] at h
  cases h

lemma splitGroup?_append (h : Explicit.splitGroup? bytes = some (list, tail)) :
    Explicit.splitGroup? (bytes ++ rest) = some (list, tail ++ rest) := by
  obtain ⟨rfl, hlist⟩ := SourcePattern.eq_of_splitGroup? h
  rw [List.append_assoc, List.cons_append, SourcePattern.splitGroup?_append_cons _ hlist]

/-- Without a closing brace there is no list. -/
lemma lookaheads_of_not_mem {inside : Bool} (h : closeLookahead ∉ bytes) :
    lookaheads inside bytes = [] := by
  induction bytes generalizing inside with
  | nil => exact lookaheads_nil
  | cons b bytes ih =>
    have hbytes : closeLookahead ∉ bytes := fun hmem => h (List.mem_cons_of_mem b hmem)
    have hsplit : Explicit.splitGroup? bytes = none := by
      cases hsplit : Explicit.splitGroup? bytes with
      | none => rfl
      | some found =>
        obtain ⟨heq, -⟩ := SourcePattern.eq_of_splitGroup? hsplit
        exact absurd (by rw [heq]; simp) hbytes
    by_cases hright : b = rightMark
    · rw [hright, lookaheads_rightMark, ih hbytes]
    by_cases hleft : b = leftMark
    · rw [hleft, lookaheads_leftMark, ih hbytes]
    rw [lookaheads_pass hright hleft fun _ _ => hsplit, ih hbytes]

/-- Bytes ask for what they start with asking for. -/
lemma lookaheads_prefix (inside : Bool) (bytes rest : Bytes) :
    lookaheads inside bytes <+: lookaheads inside (bytes ++ rest) := by
  fun_induction lookaheads inside bytes with
  | case1 => exact List.nil_prefix
  | case2 inside bytes ih =>
    rw [List.cons_append, lookaheads_rightMark]
    exact ih
  | case3 inside bytes hright ih =>
    rw [List.cons_append, lookaheads_leftMark]
    exact ih
  | case4 inside b bytes hright hleft hopen list tail hsplit ih =>
    obtain ⟨rfl, rfl⟩ := hopen
    rw [List.cons_append, lookaheads_list (splitGroup?_append hsplit)]
    exact List.cons_prefix_cons.mpr ⟨rfl, ih⟩
  | case5 inside b bytes hright hleft hopen hsplit ih =>
    rw [lookaheads_of_not_mem (not_mem_of_splitGroup? hsplit)]
    exact List.nil_prefix
  | case6 inside b bytes hright hleft hopen ih =>
    rw [List.cons_append, lookaheads_pass hright hleft fun h h' => absurd ⟨h, h'⟩ hopen]
    exact ih

lemma body_prefix {pattern whole : Bytes} (h : pattern <+: whole) : body pattern <+: body whole := by
  obtain ⟨rest, rfl⟩ := h
  cases pattern with
  | nil => exact List.nil_prefix
  | cons b pattern =>
    rw [List.cons_append, body, body]
    split
    · exact (List.prefix_append _ _).drop 1
    · exact List.prefix_append _ _

/-- A pattern that has been cut off asks for nothing new. -/
theorem asked_prefix {pattern whole : Bytes} (h : pattern <+: whole) :
    asked pattern <+: asked whole := by
  obtain ⟨rest, hrest⟩ := body_prefix h
  rw [asked, asked, ← hrest]
  exact lookaheads_prefix _ _ _

end Prefixes

section Accepted

variable {source context rest : Bytes} {guard : Option Guard} {lookahead seen : Bool}

/-- What an accepted context asks for can be read. -/
lemma exists_spec_of_checkContext
    (h : SourcePattern.checkContext lookahead seen context = .ok ()) :
    ∀ list ∈ lookaheads true (context ++ leftMark :: rest),
      list ∈ lookaheads false rest ∨ ∃ spec, FeatureSpec.parse list = .ok spec := by
  fun_induction SourcePattern.checkContext lookahead seen context with
  | case1 =>
    rw [List.nil_append, lookaheads_leftMark]
    exact fun list hlist => .inl hlist
  | case7 seen bytes hlookahead hseen list tail hsplit spec hspec hmark ih =>
    rw [List.cons_append, lookaheads_list (splitGroup?_append hsplit)]
    exact List.forall_mem_cons.mpr ⟨.inr ⟨spec, hspec⟩, ih h⟩
  | case8 seen b bytes hmark hopen ih =>
    rw [List.cons_append, lookaheads_pass (fun heq => hmark (.inr heq)) (fun heq => hmark (.inl heq))
      fun _ heq => absurd heq hopen]
    exact ih h
  | _ => cases h

/-- Nothing is asked for by what stands behind the anchor but in the right context. -/
lemma lookaheads_contextBytes {left right : Option Bytes} {list : Bytes}
    (hleft : SourcePattern.checkContext false false (left.getD []) = .ok ())
    (hright : SourcePattern.checkContext lookahead false (right.getD []) = .ok ())
    (h : list ∈ lookaheads false (contextBytes left right)) :
    ∃ spec, FeatureSpec.parse list = .ok spec := by
  obtain ⟨items, hitems, -, hin⟩ := SourcePattern.exists_items_of_checkContext hleft
  have hmark : rightMark ∉ (left.getD []).reverse := by
    rw [List.mem_reverse, ← hitems]
    exact (Reading.marks_not_mem (hin rfl)).2
  have hnone := lookaheads_outside hmark
  cases right with
  | none =>
    cases left with
    | none => simp [contextBytes] at h
    | some left =>
      rw [Option.getD_some] at hnone
      rw [contextBytes, lookaheads_leftMark, hnone] at h
      cases h
  | some right =>
    have hcontext : contextBytes left (some right) =
        rightMark :: (right ++ leftMark :: (left.getD []).reverse) := by
      cases left <;> rfl
    rw [hcontext, lookaheads_rightMark] at h
    rcases exists_spec_of_checkContext hright list h with hmem | hspec
    · rw [hnone] at hmem
      cases hmem
    · exact hspec

/-- Every list that an accepted pattern asks for is a list of features. -/
theorem exists_spec_of_ofSource {stored : StoredPattern}
    (h : ofSource source guard lookahead = .ok stored) :
    ∀ list ∈ asked stored.bytes, ∃ spec, FeatureSpec.parse list = .ok spec := by
  obtain ⟨hcheck, hbytes, hstarts, rest, hfirst⟩ := ofSource_ok h
  rw [hbytes, asked, body_encode guard hstarts hfirst]
  generalize SourcePattern.split source = p at hcheck
  obtain ⟨left, anchor, right⟩ := p
  obtain ⟨group, hanchor, hcheck⟩ := Outcome.exists_of_bind_eq_ok hcheck
  obtain ⟨_, hleft, hcheck⟩ := Outcome.exists_of_bind_eq_ok hcheck
  obtain ⟨_, hright, -⟩ := Outcome.exists_of_bind_eq_ok hcheck
  obtain ⟨items, -, rfl, hin⟩ := SourcePattern.exists_items_of_checkAnchor hanchor
  have hplain : ∀ b ∈ itemBytes (.literal group :: items),
      b ≠ leftMark ∧ b ≠ rightMark ∧ b ≠ openLookahead := by
    intro b hb
    obtain ⟨i, hi, hb⟩ := List.mem_flatMap.mp hb
    have hi := Item.inLeft_of_inAnchor (hin i hi)
    obtain ⟨hl, hr⟩ := Item.mark_not_mem_of_inLeft hi b hb
    exact ⟨hl, hr, fun heq => Item.openLookahead_not_mem_of_inLeft hi (heq ▸ hb)⟩
  intro list hlist
  rw [lookaheads_append_of_plain hplain] at hlist
  exact lookaheads_contextBytes hleft hright hlist

end Accepted

end LetterToSound.StoredPattern
