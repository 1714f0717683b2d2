import Mathlib
import LetterToSound.Language.Parser

/-!
# What tokens say

Where a token stands is of interest only when a fault is reported. So a reader that succeeds does so
wherever the same words stand in the same order, and whatever stands behind those that it takes: an
item that is complete reads the same in every source that starts with it.
-/

namespace LetterToSound

/-- What a token may say. -/
abbrev Word := TokenKind × Bytes

/-- What a token says, wherever it stands. -/
def Token.word (t : Token) : Word := (t.kind, t.text)

lemma Token.kind_eq {t u : Token} (h : u.word = t.word) : u.kind = t.kind := congrArg Prod.fst h

lemma Token.text_eq {t u : Token} (h : u.word = t.word) : u.text = t.text := congrArg Prod.snd h

/-- What the tokens of a source say. -/
def Source.wording (source : Bytes) : List Word := (Source.tokens source).map Token.word

namespace Outcome

variable {ε α β γ δ : Type} {r : α → β → Prop} {s : γ → δ → Prop} {x : Except ε α} {y : Except ε β}

/-- Where the one step succeeds, so does the other, with a result that corresponds. -/
def Carries (r : α → β → Prop) (x : Except ε α) (y : Except ε β) : Prop :=
  ∀ a, x = .ok a → ∃ b, y = .ok b ∧ r a b

namespace Carries

lemma of_ok {b : β} (h : ∀ a, x = .ok a → r a b) : Carries r x (.ok b) := fun a ha => ⟨b, rfl, h a ha⟩

lemma of_error {e : ε} : Carries r (.error e) y := fun _ h => by cases h

lemma rfl : Carries Eq x x := fun a ha => ⟨a, ha, by trivial⟩

lemma bind {f : α → Except ε γ} {g : β → Except ε δ} (h : Carries r x y)
    (hf : ∀ a b, r a b → Carries s (f a) (g b)) : Carries s (x >>= f) (y >>= g) := by
  intro c hc
  obtain ⟨a, ha, hfa⟩ := exists_of_bind_eq_ok hc
  obtain ⟨b, hb, hab⟩ := h a ha
  obtain ⟨d, hd, hcd⟩ := hf a b hab c hfa
  exact ⟨d, (bind_eq_of_ok hb g).trans hd, hcd⟩

lemma map {x y : Except ε α} (h : Carries Eq x y) (f : α → γ) : Carries Eq (x.map f) (y.map f) := by
  intro c hc
  obtain ⟨a, ha, rfl⟩ := map_eq_ok_iff.mp hc
  obtain ⟨_, hy, hab⟩ := h a ha
  exact ⟨_, map_eq_ok_iff.mpr ⟨_, hy, by trivial⟩, congrArg f hab⟩

end Carries

end Outcome

namespace Language

open Outcome (Carries)
open Source (expect)

variable {more : List Word} {finish finish' t u : Token} {ts us : List Token}
  {scope : Scope} {α : Type}

/-- Tokens that say what others say, and more behind it. -/
def Continues (more : List Word) (ts us : List Token) : Prop :=
  us.map Token.word = ts.map Token.word ++ more

/-- Results that correspond, with tokens that have been left behind them. -/
def Behind {β : Type} (q : α → β → Prop) (more : List Word) (p : α × List Token)
    (p' : β × List Token) : Prop := q p.1 p'.1 ∧ Continues more p.2 p'.2

/-- Two tokens that say the same. -/
def Alike (t u : Token) : Prop := u.word = t.word

lemma Continues.exists_cons (h : Continues more (t :: ts) us) :
    ∃ u us', us = u :: us' ∧ u.word = t.word ∧ Continues more ts us' := by
  obtain ⟨u, us', rfl, hword, hrest⟩ := List.map_eq_cons_iff.mp h
  exact ⟨u, us', rfl, hword, hrest⟩

lemma expect_carries (kind : TokenKind) (h : Continues more ts us) :
    Carries (Behind Alike more) (expect finish kind ts) (expect finish' kind us) := by
  cases ts with
  | nil => exact .of_error
  | cons t ts =>
    obtain ⟨u, us', rfl, hword, hrest⟩ := h.exists_cons
    rw [expect, expect, Token.kind_eq hword]
    split
    · exact .of_ok fun p hp => by cases hp; exact ⟨hword, hrest⟩
    · exact .of_error

section Words

lemma checkAlphabet_carries (h : Alike t u) :
    Carries Eq (Source.checkAlphabet t) (Source.checkAlphabet u) := by
  rw [Source.checkAlphabet, Source.checkAlphabet, Token.shown, Token.shown, Token.text_eq h]
  split
  · exact .rfl
  · exact .of_error

lemma directiveItem_carries {body body' : Token} (h : Alike t u) (hbody : Alike body body') :
    Carries Eq (directiveItem t body) (directiveItem u body') := by
  rw [directiveItem, directiveItem, Token.text_eq h, Token.text_eq hbody]
  split
  · exact .rfl
  split
  · exact (checkAlphabet_carries hbody).map _
  · exact .of_error

lemma classId_carries (h : Alike t u) : Carries Eq (classId scope t) (classId scope u) := by
  rw [classId, classId, Token.text_eq h]
  split
  · split_ifs
    · exact .of_error
    · exact .of_error
    · exact .rfl
  · exact .of_error

lemma flagOf_carries (h : Alike t u) : Carries Eq (flagOf t) (flagOf u) := by
  rw [flagOf, flagOf, Token.text_eq h]
  split
  · split
    · exact .rfl
    · exact .of_error
  · exact .of_error

lemma predicateOf_carries (h : Alike t u) : Carries Eq (predicateOf t) (predicateOf u) := by
  rw [predicateOf, predicateOf, Token.text_eq h]
  split
  · exact .rfl
  · exact .of_error

lemma checkIf_carries (h : Alike t u) : Carries Eq (checkIf t) (checkIf u) := by
  rw [checkIf, checkIf, Token.text_eq h]
  split
  · exact .rfl
  · exact .of_error

lemma formatOf_carries (h : Alike t u) : Carries Eq (formatOf t) (formatOf u) := by
  rw [formatOf, formatOf, Token.text_eq h]
  split
  · exact .of_error
  · exact .rfl

lemma makeConditional_carries (polarity : Polarity) (name locale : Bytes) :
    Carries Eq (makeConditional scope t polarity name locale)
      (makeConditional scope u polarity name locale) := by
  rw [makeConditional, makeConditional]
  split
  · exact .of_error
  · exact .rfl

lemma checkEntry_carries (e : Entry) :
    Carries Eq (scope.checkEntry t e) (scope.checkEntry u e) := by
  rw [Scope.checkEntry, Scope.checkEntry]
  split
  · exact .rfl
  · split
    · exact .of_error
    · exact .rfl

end Words

lemma takeDirective_carries (hword : Alike t u) (h : Continues more ts us) :
    Carries (Behind Eq more) (takeDirective finish t ts) (takeDirective finish' u us) := by
  refine (expect_carries .directiveBody h).bind ?_
  rintro ⟨body, rest⟩ ⟨body', rest'⟩ ⟨hbody, hrest⟩
  refine (directiveItem_carries hword hbody).bind ?_
  rintro item _ rfl
  exact .of_ok fun p hp => by cases hp; exact ⟨rfl, hrest⟩

lemma readMembers_carries (done : List Bytes) (h : Continues more ts us) :
    Carries (Behind Eq more) (readMembers finish done ts) (readMembers finish' done us) := by
  induction ts generalizing done us with
  | nil => exact .of_error
  | cons t ts ih =>
    obtain ⟨u, us', rfl, hword, hrest⟩ := h.exists_cons
    rw [readMembers, readMembers, Token.kind_eq hword, Token.text_eq hword]
    split_ifs
    · exact .of_ok fun p hp => by cases hp; exact ⟨rfl, hrest⟩
    · exact ih _ hrest
    · exact .of_error

lemma takeClass_carries (h : Continues more ts us) :
    Carries (Behind Eq more) (takeClass finish scope ts) (takeClass finish' scope us) := by
  refine (expect_carries .text h).bind ?_
  rintro ⟨name, rest⟩ ⟨name', rest'⟩ ⟨hname, hrest⟩
  refine (classId_carries hname).bind ?_
  rintro id _ rfl
  refine (readMembers_carries [] hrest).bind ?_
  rintro ⟨members, rest⟩ ⟨_, rest'⟩ ⟨rfl, hrest⟩
  exact .of_ok fun p hp => by cases hp; exact ⟨rfl, hrest⟩

lemma takeConditional_carries (h : Continues more ts us) :
    Carries (Behind Eq more) (takeConditional finish scope t ts)
      (takeConditional finish' scope u us) := by
  refine (expect_carries .text h).bind ?_
  rintro ⟨flag, rest⟩ ⟨flag', rest'⟩ ⟨hflag, hrest⟩
  refine (flagOf_carries hflag).bind ?_
  rintro ⟨polarity, name⟩ _ rfl
  refine (expect_carries .text hrest).bind ?_
  rintro ⟨word, rest⟩ ⟨word', rest'⟩ ⟨hword, hrest⟩
  refine (checkIf_carries hword).bind ?_
  rintro _ _ -
  refine (expect_carries .text hrest).bind ?_
  rintro ⟨predicate, rest⟩ ⟨predicate', rest'⟩ ⟨hpredicate, hrest⟩
  refine (predicateOf_carries hpredicate).bind ?_
  rintro locale _ rfl
  refine (makeConditional_carries polarity name locale).bind ?_
  rintro item _ rfl
  exact .of_ok fun p hp => by cases hp; exact ⟨rfl, hrest⟩

lemma readEntries_of_end {check : Entry → Except CompileError Unit} (done : List Entry)
    (hkind : t.kind = .text) (hend : t.text = Source.endWord) :
    readEntries finish check done (t :: ts) = (done.reverse, .ok ts) := by
  cases ts <;> simp [readEntries, hkind, hend]

lemma readEntries_carries {format : Token} {done entries : List Entry} {rest : List Token}
    (finish' format' : Token) (h : Continues more ts us)
    (hread : readEntries finish (scope.checkEntry format) done ts = (entries, .ok rest)) :
    ∃ rest', readEntries finish' (scope.checkEntry format') done us = (entries, .ok rest') ∧
      Continues more rest rest' := by
  fun_induction readEntries finish (scope.checkEntry format) done ts generalizing us with
  | case3 done word hkind hend =>
    obtain ⟨u, us', rfl, hword, hrest⟩ := h.exists_cons
    cases hread
    rw [readEntries_of_end done ((Token.kind_eq hword).trans (by simpa using hkind))
      ((Token.text_eq hword).trans hend)]
    exact ⟨us', rfl, hrest⟩
  | case6 done word value tokens hkind hend =>
    obtain ⟨u, us', rfl, hword, hrest⟩ := h.exists_cons
    cases hread
    rw [readEntries_of_end done ((Token.kind_eq hword).trans (by simpa using hkind))
      ((Token.text_eq hword).trans hend)]
    exact ⟨us', rfl, hrest⟩
  | case7 done word value tokens hkind hend hquoted ih =>
    obtain ⟨u, us', rfl, hword, hrest⟩ := h.exists_cons
    obtain ⟨v, vs, rfl, hvalue, hrest⟩ := hrest.exists_cons
    rw [readEntries, Token.kind_eq hword, Token.text_eq hword, Token.kind_eq hvalue, if_neg hkind,
      if_neg hend, if_pos hquoted]
    exact ih hrest hread
  | case9 done word value tokens hkind hend hquoted hphonemes entry hcheck =>
    rename_i ih
    obtain ⟨u, us', rfl, hword, hrest⟩ := h.exists_cons
    obtain ⟨v, vs, rfl, hvalue, hrest⟩ := hrest.exists_cons
    obtain ⟨_, hcheck', -⟩ := checkEntry_carries (u := format')
      ⟨word.text, value.text⟩ () hcheck
    rw [readEntries, Token.kind_eq hword, Token.text_eq hword, Token.kind_eq hvalue,
      Token.text_eq hvalue, if_neg hkind, if_neg hend, if_neg hquoted, if_pos hphonemes]
    simp only [hcheck']
    exact ih hrest hread
  | _ => cases hread

lemma takeDictionary_carries (h : Continues more ts us) :
    Carries (Behind Eq more) (takeDictionary finish scope ts) (takeDictionary finish' scope us) := by
  refine (expect_carries .text h).bind ?_
  rintro ⟨format, rest⟩ ⟨format', rest'⟩ ⟨hformat, hrest⟩
  have hdiscard : Carries Eq (discard (formatOf format)) (discard (formatOf format')) :=
    (formatOf_carries hformat).map _
  refine hdiscard.bind ?_
  rintro _ _ -
  intro p hp
  obtain ⟨item, left⟩ := p
  dsimp only [readDictionary] at hp
  split at hp
  · cases hp
  · rename_i entries left' hread
    cases hp
    obtain ⟨left', hread', hleft⟩ := readEntries_carries finish' format' hrest hread
    refine ⟨(.dictionary entries, left'), ?_, rfl, hleft⟩
    dsimp only [readDictionary]
    rw [hread']

end Language

end LetterToSound
