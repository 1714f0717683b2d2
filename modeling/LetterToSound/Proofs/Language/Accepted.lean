import Mathlib
import LetterToSound.Language.Parser

/-!
# Accepted sources

What the readers of a language source let through. Every string of an accepted item is a token of the
source or the end of one, ids of conditionals are numbers of names in scope, classes are new letters,
and patterns are stored patterns whose guards the scope knows. Accepted items follow one another, each
in the scope behind those before it.
-/

namespace LetterToSound.Language

open Source (expect)

/-- A rule that a block of a kind may hold. Its guard is known to the scope; a letter rule sounds. -/
structure Rule.Made (texts : List Bytes) (scope : Scope) (kind : RuleKind) (r : Rule) : Prop where
  pattern : ∃ source ∈ texts, ∃ guard : Option Guard,
    (∀ g ∈ guard, ∃ name, scope.id? name = some g.id) ∧
      StoredPattern.ofSource source guard kind.lookahead = .ok ⟨r.group, r.pattern⟩
  replacement : r.replacement ∈ texts
  phonemes : kind = .letter → ∃ a ∈ scope.alphabet, ∃ ps, a.parse r.replacement = .ok ps

/-- A dictionary entry that a scope lets through. -/
structure Entry.Made (texts : List Bytes) (scope : Scope) (e : Entry) : Prop where
  word : e.word ∈ texts
  phonemes : e.phonemes ∈ texts
  parses : ∀ a ∈ scope.alphabet, ∃ ps, a.parse e.phonemes = .ok ps

/-- A conditional that a scope lets through. -/
structure Conditional.Made (texts : List Bytes) (scope : Scope) (c : Conditional) : Prop where
  name : ∃ t ∈ texts, c.name <:+ t
  name_ne_nil : c.name ≠ []
  id : scope.idFor? c.name = some c.id
  locale : ∃ t ∈ texts, c.locale <:+ t

/-- A class that a scope lets through. -/
structure LetterClass.Made (texts : List Bytes) (scope : Scope) (c : LetterClass) : Prop where
  letter : Pattern.isClassId c.id = true
  new : c.id ∉ scope.classes
  members : ∀ m ∈ c.members, m ∈ texts ∧ m ≠ []

/-- An item that a scope lets through. -/
def Item.Made (texts : List Bytes) (scope : Scope) : Item → Prop
  | locale value => value ∈ texts
  | alphabet name => name ∈ texts ∧ (Alphabet.named? (Utf8.lossy name)).isSome
  | conditional c => c.Made texts scope
  | letterClass c => c.Made texts scope
  | spellingRules rules => ∀ r ∈ rules, r.Made texts scope .spelling
  | letterRules rules => ∀ r ∈ rules, r.Made texts scope .letter
  | dictionary entries => ∀ e ∈ entries, e.Made texts scope

/-- Items that follow one another, each let through by the scope behind those before it. -/
inductive Accepted (texts : List Bytes) : Scope → List Item → Prop
  | nil (scope : Scope) : Accepted texts scope []
  | cons {scope : Scope} {i : Item} {rest : List Item} (hi : i.Made texts scope)
      (hrest : Accepted texts (scope.after i) rest) : Accepted texts scope (i :: rest)

section Readers

variable {texts : List Bytes} {scope : Scope} {finish t : Token} {tokens rest : List Token}

lemma expect_ok {kind : TokenKind} (h : expect finish kind tokens = .ok (t, rest)) :
    tokens = t :: rest ∧ t.kind = kind := by
  unfold expect at h
  split at h
  · cases h
  · split at h
    · cases h
      exact ⟨rfl, by assumption⟩
    · cases h

lemma takeGuard_ok {guard : Option Guard} (h : takeGuard scope tokens = .ok (guard, rest)) :
    rest <:+ tokens ∧ ∀ g ∈ guard, ∃ name, scope.id? name = some g.id := by
  unfold takeGuard at h
  split at h
  · cases h
    exact ⟨List.suffix_rfl, by simp⟩
  · split at h
    · split at h
      · cases h
        exact ⟨List.suffix_rfl, by simp⟩
      · split at h
        · cases h
        · rename_i hid
          cases h
          refine ⟨List.suffix_cons _ _, fun g hg => ?_⟩
          cases hg
          exact ⟨_, hid⟩
    · cases h
      exact ⟨List.suffix_rfl, by simp⟩

lemma takeGuardUnless_ok {before guard : Option Guard}
    (hbefore : ∀ g ∈ before, ∃ name, scope.id? name = some g.id)
    (h : takeGuardUnless scope before tokens = .ok (guard, rest)) :
    rest <:+ tokens ∧ ∀ g ∈ guard, ∃ name, scope.id? name = some g.id := by
  cases before with
  | some g =>
    cases h
    exact ⟨List.suffix_rfl, hbefore⟩
  | none => exact takeGuard_ok h

lemma makeRule_ok {kind : RuleKind} {pattern replacement : Token} {guard : Option Guard} {r : Rule}
    (hpattern : pattern.text ∈ texts) (hreplacement : replacement.text ∈ texts)
    (hguard : ∀ g ∈ guard, ∃ name, scope.id? name = some g.id)
    (h : makeRule scope kind pattern replacement guard = .ok r) : r.Made texts scope kind := by
  unfold makeRule at h
  split at h
  · cases h
  rename_i stored hstored
  cases kind with
  | spelling =>
    cases h
    exact ⟨⟨pattern.text, hpattern, guard, hguard, hstored⟩, hreplacement, by simp⟩
  | letter =>
    obtain ⟨ps, hps, h⟩ : ∃ ps, Source.phonemes scope.alphabet replacement = .ok ps ∧
        (⟨stored.group, stored.bytes, replacement.text⟩ : Rule) = r := by
      cases hps : Source.phonemes scope.alphabet replacement with
      | error e =>
        rw [hps] at h
        cases h
      | ok ps =>
        rw [hps] at h
        cases h
        exact ⟨ps, rfl, rfl⟩
    subst h
    refine ⟨⟨pattern.text, hpattern, guard, hguard, hstored⟩, hreplacement, fun _ => ?_⟩
    unfold Source.phonemes at hps
    split at hps
    · cases hps
    · rename_i a ha
      split at hps
      · cases hps
      · rename_i hparse
        exact ⟨a, ha, _, hparse⟩

lemma takeRule_ok {kind : RuleKind} {pattern : Token} {r : Rule}
    (hpattern : pattern.text ∈ texts) (htexts : ∀ u ∈ tokens, u.text ∈ texts)
    (h : takeRule finish scope kind pattern tokens = .ok (r, rest)) :
    rest <:+ tokens ∧ r.Made texts scope kind := by
  obtain ⟨⟨before, first⟩, hbefore, h⟩ := Outcome.exists_of_bind_eq_ok h
  obtain ⟨⟨replacement, second⟩, hreplacement, h⟩ := Outcome.exists_of_bind_eq_ok h
  obtain ⟨⟨guard, third⟩, hguard, h⟩ := Outcome.exists_of_bind_eq_ok h
  obtain ⟨made, hmade, h⟩ := Outcome.exists_of_bind_eq_ok h
  cases h
  obtain ⟨hfirst, hknown⟩ := takeGuard_ok hbefore
  obtain ⟨rfl, -⟩ := expect_ok hreplacement
  obtain ⟨hthird, hknown'⟩ := takeGuardUnless_ok hknown hguard
  refine ⟨hthird.trans ((List.suffix_cons _ _).trans hfirst), ?_⟩
  exact makeRule_ok hpattern (htexts _ (hfirst.subset List.mem_cons_self)) hknown' hmade

lemma readRules_ok {kind : RuleKind} {done rules : List Rule}
    (htexts : ∀ u ∈ tokens, u.text ∈ texts) (hdone : ∀ r ∈ done, r.Made texts scope kind)
    (h : readRules finish scope kind done tokens = .ok (rules, rest)) :
    rest <:+ tokens ∧ ∀ r ∈ rules, r.Made texts scope kind := by
  fun_induction readRules finish scope kind done tokens with
  | case3 done pattern tokens hkind hend =>
    cases h
    exact ⟨List.suffix_cons _ _, fun r hr => hdone r (List.mem_reverse.mp hr)⟩
  | case5 done pattern tokens hkind hend rule behind htake ih =>
    obtain ⟨hpattern, htexts'⟩ := List.forall_mem_cons.mp htexts
    obtain ⟨hbehind, hrule⟩ := takeRule_ok hpattern htexts' htake
    obtain ⟨hrest, hrules⟩ := ih (fun u hu => htexts' u (hbehind.subset hu))
      (List.forall_mem_cons.mpr ⟨hrule, hdone⟩) h
    exact ⟨hrest.trans (hbehind.trans (List.suffix_cons _ _)), hrules⟩
  | _ => cases h

lemma readMembers_ok {done members : List Bytes} (htexts : ∀ u ∈ tokens, u.text ∈ texts)
    (hdone : ∀ m ∈ done, m ∈ texts ∧ m ≠ [])
    (h : readMembers finish done tokens = .ok (members, rest)) :
    rest <:+ tokens ∧ ∀ m ∈ members, m ∈ texts ∧ m ≠ [] := by
  fun_induction readMembers finish done tokens with
  | case2 done t tokens hend =>
    cases h
    exact ⟨List.suffix_cons _ _, fun m hm => hdone m (List.mem_reverse.mp hm)⟩
  | case3 done t tokens hend hmember ih =>
    obtain ⟨ht, htexts'⟩ := List.forall_mem_cons.mp htexts
    obtain ⟨hrest, hmembers⟩ := ih htexts' (List.forall_mem_cons.mpr ⟨⟨ht, hmember.2⟩, hdone⟩) h
    exact ⟨hrest.trans (List.suffix_cons _ _), hmembers⟩
  | _ => cases h

lemma readEntries_ok {format : Token} {done entries : List Entry}
    (htexts : ∀ u ∈ tokens, u.text ∈ texts) (hdone : ∀ e ∈ done, e.Made texts scope)
    (h : readEntries finish (scope.checkEntry format) done tokens = (entries, .ok rest)) :
    rest <:+ tokens ∧ ∀ e ∈ entries, e.Made texts scope := by
  have hreverse : ∀ e ∈ done.reverse, e.Made texts scope := fun e he =>
    hdone e (List.mem_reverse.mp he)
  fun_induction readEntries finish (scope.checkEntry format) done tokens with
  | case3 done word hkind hend =>
    cases h
    exact ⟨List.nil_suffix, hreverse⟩
  | case6 done word value tokens hkind hend =>
    cases h
    exact ⟨List.suffix_cons _ _, hreverse⟩
  | case7 done word value tokens hkind hend hquoted ih =>
    obtain ⟨-, hvalue⟩ := List.forall_mem_cons.mp htexts
    obtain ⟨hrest, hentries⟩ := ih (List.forall_mem_cons.mp hvalue).2 hdone h hreverse
    exact ⟨hrest.trans (List.suffix_append [word, value] tokens), hentries⟩
  | case9 done word value tokens hkind hend hquoted hphonemes entry hcheck ih =>
    obtain ⟨hword, htexts'⟩ := List.forall_mem_cons.mp htexts
    obtain ⟨hvalue, htexts''⟩ := List.forall_mem_cons.mp htexts'
    have hentry : entry.Made texts scope := by
      refine ⟨hword, hvalue, fun a ha => ?_⟩
      unfold Scope.checkEntry at hcheck
      rw [ha] at hcheck
      dsimp only at hcheck
      split at hcheck
      · cases hcheck
      · rename_i hparse
        exact ⟨_, hparse⟩
    have hall := List.forall_mem_cons.mpr ⟨hentry, hdone⟩
    obtain ⟨hrest, hentries⟩ := ih htexts'' hall h fun e he => hall e (List.mem_reverse.mp he)
    exact ⟨hrest.trans (List.suffix_append [word, value] tokens), hentries⟩
  | _ => cases h

end Readers

section Items

variable {texts : List Bytes} {scope : Scope} {finish t : Token} {tokens rest : List Token} {i : Item}

lemma takeDirective_ok (htexts : ∀ u ∈ tokens, u.text ∈ texts)
    (h : takeDirective finish t tokens = .ok (i, rest)) : rest <:+ tokens ∧ i.Made texts scope := by
  obtain ⟨⟨body, behind⟩, hbody, h⟩ := Outcome.exists_of_bind_eq_ok h
  obtain ⟨made, hmade, h⟩ := Outcome.exists_of_bind_eq_ok h
  cases h
  obtain ⟨rfl, -⟩ := expect_ok hbody
  have hmem := htexts body List.mem_cons_self
  refine ⟨List.suffix_cons _ _, ?_⟩
  unfold directiveItem at hmade
  split at hmade
  · cases hmade
    exact hmem
  split at hmade
  · unfold Source.checkAlphabet at hmade
    split at hmade
    · rename_i hnamed
      cases hmade
      exact ⟨hmem, hnamed⟩
    · cases hmade
  · cases hmade

lemma takeClass_ok (htexts : ∀ u ∈ tokens, u.text ∈ texts)
    (h : takeClass finish scope tokens = .ok (i, rest)) : rest <:+ tokens ∧ i.Made texts scope := by
  obtain ⟨⟨name, behind⟩, hname, h⟩ := Outcome.exists_of_bind_eq_ok h
  obtain ⟨id, hid, h⟩ := Outcome.exists_of_bind_eq_ok h
  obtain ⟨⟨members, last⟩, hmembers, h⟩ := Outcome.exists_of_bind_eq_ok h
  cases h
  obtain ⟨rfl, -⟩ := expect_ok hname
  obtain ⟨hlast, hall⟩ := readMembers_ok (List.forall_mem_cons.mp htexts).2 (by simp) hmembers
  refine ⟨hlast.trans (List.suffix_cons _ _), ?_⟩
  unfold classId at hid
  split at hid
  · split at hid
    · cases hid
    split at hid
    · cases hid
    rename_i hletter hnew
    cases hid
    exact ⟨by simpa using hletter, by simpa using hnew, hall⟩
  · cases hid

lemma flagOf_ok {polarity : Polarity} {name : Bytes} (h : flagOf t = .ok (polarity, name)) :
    name <:+ t.text ∧ name ≠ [] := by
  unfold flagOf at h
  split at h
  · rename_i b c name' htext
    split at h
    · cases h
      rw [htext]
      exact ⟨List.suffix_cons _ _, by simp⟩
    · cases h
  · cases h

lemma predicateOf_ok {locale : Bytes} (h : predicateOf t = .ok locale) : locale <:+ t.text := by
  unfold predicateOf at h
  split at h
  · rename_i hprefix
    cases h
    exact ⟨_, List.isPrefixOf?_eq_some_iff_append_eq.mp hprefix⟩
  · cases h

lemma takeConditional_ok (htexts : ∀ u ∈ tokens, u.text ∈ texts)
    (h : takeConditional finish scope t tokens = .ok (i, rest)) :
    rest <:+ tokens ∧ i.Made texts scope := by
  obtain ⟨⟨flag, first⟩, hflag, h⟩ := Outcome.exists_of_bind_eq_ok h
  obtain ⟨⟨polarity, name⟩, hname, h⟩ := Outcome.exists_of_bind_eq_ok h
  obtain ⟨⟨word, second⟩, hword, h⟩ := Outcome.exists_of_bind_eq_ok h
  obtain ⟨_, -, h⟩ := Outcome.exists_of_bind_eq_ok h
  obtain ⟨⟨predicate, third⟩, hpredicate, h⟩ := Outcome.exists_of_bind_eq_ok h
  obtain ⟨locale, hlocale, h⟩ := Outcome.exists_of_bind_eq_ok h
  obtain ⟨made, hmade, h⟩ := Outcome.exists_of_bind_eq_ok h
  cases h
  obtain ⟨rfl, -⟩ := expect_ok hflag
  obtain ⟨rfl, -⟩ := expect_ok hword
  obtain ⟨rfl, -⟩ := expect_ok hpredicate
  obtain ⟨hsuffix, hne⟩ := flagOf_ok hname
  refine ⟨List.suffix_append [flag, word, predicate] _, ?_⟩
  unfold makeConditional at hmade
  split at hmade
  · cases hmade
  · rename_i id hid
    cases hmade
    exact ⟨⟨flag.text, htexts flag (by simp), hsuffix⟩, hne, hid,
      ⟨predicate.text, htexts predicate (by simp), predicateOf_ok hlocale⟩⟩

lemma takeRules_ok {kind : RuleKind} (htexts : ∀ u ∈ tokens, u.text ∈ texts)
    (h : takeRules finish scope kind tokens = .ok (i, rest)) :
    rest <:+ tokens ∧ i.Made texts scope := by
  obtain ⟨⟨rules, behind⟩, hrules, h⟩ := Outcome.exists_of_bind_eq_ok h
  obtain ⟨hbehind, hall⟩ := readRules_ok htexts (by simp) hrules
  cases kind with
  | spelling =>
    cases h
    exact ⟨hbehind, hall⟩
  | letter =>
    cases h
    exact ⟨hbehind, hall⟩

lemma takeDictionary_ok (htexts : ∀ u ∈ tokens, u.text ∈ texts)
    (h : takeDictionary finish scope tokens = .ok (i, rest)) :
    rest <:+ tokens ∧ i.Made texts scope := by
  obtain ⟨⟨format, behind⟩, hformat, h⟩ := Outcome.exists_of_bind_eq_ok h
  obtain ⟨_, -, h⟩ := Outcome.exists_of_bind_eq_ok h
  unfold readDictionary at h
  split at h
  · cases h
  · rename_i entries last hentries
    cases h
    obtain ⟨rfl, -⟩ := expect_ok hformat
    obtain ⟨hlast, hall⟩ := readEntries_ok (List.forall_mem_cons.mp htexts).2 (by simp) hentries
    exact ⟨hlast.trans (List.suffix_cons _ _), hall⟩

/-- An item that has been taken is one that its scope lets through. -/
theorem takeItem_ok (htexts : ∀ u ∈ tokens, u.text ∈ texts)
    (h : takeItem finish scope t tokens = .ok (i, rest)) : rest <:+ tokens ∧ i.Made texts scope := by
  unfold takeItem at h
  split at h
  · exact takeDirective_ok htexts h
  split at h
  · cases h
  split at h
  · exact takeClass_ok htexts h
  split at h
  · exact takeConditional_ok htexts h
  split at h
  · exact takeRules_ok htexts h
  split at h
  · exact takeRules_ok htexts h
  split at h
  · exact takeDictionary_ok htexts h
  · cases h

/-- Items that have been read are accepted one after the other. -/
theorem accepted_of_readItems {done items : List Item} (htexts : ∀ u ∈ tokens, u.text ∈ texts)
    (h : readItems finish scope done tokens = .ok items) :
    ∃ more, items = done.reverse ++ more ∧ Accepted texts scope more := by
  fun_induction readItems finish scope done tokens with
  | case1 scope done =>
    cases h
    exact ⟨[], by simp, .nil scope⟩
  | case2 => cases h
  | case3 scope done t tokens item behind htake ih =>
    obtain ⟨hbehind, hitem⟩ := takeItem_ok (List.forall_mem_cons.mp htexts).2 htake
    obtain ⟨more, rfl, hmore⟩ := ih
      (fun u hu => htexts u (List.mem_cons_of_mem t (hbehind.subset hu))) h
    exact ⟨item :: more, by simp, .cons hitem hmore⟩

/-- The items of an accepted source are accepted one after the other, from the empty scope on. -/
theorem accepted_of_items {source : Bytes} {is : List Item} (h : items source = .ok is) :
    Accepted ((Source.tokens source).map Token.text) Scope.empty is := by
  obtain ⟨more, rfl, hmore⟩ := accepted_of_readItems (fun u hu => List.mem_map_of_mem hu) h
  exact hmore

end Items

end LetterToSound.Language
