import Mathlib
import LetterToSound.Compile
import LetterToSound.Proofs.Language.RuleBlocks
import LetterToSound.Proofs.Source.Lines

/-!
# The order of blocks

A source is accepted just if its words are those of items, one behind the other, each read in the scope
behind those before it. The words of a block go to the first one that ends it, and a block has no
bearing on blocks of other kinds: only classes change the scope, and only classes ask for them. So two
blocks of different kinds, one behind the other, say the same in either order.
-/

namespace LetterToSound

/-- The word that starts a block. -/
def Block.keyword (b : Block) : Word := (.text, Bytes.ofString b.name)

namespace Language

open Source (expect endWord wording)

variable {finish t : Token} {ts rest : List Token} {scope scope' : Scope} {i : Item} {is : List Item}
  {ws ws' more : List Word} {α : Type}

/-! ## Where items end -/

/-- Words up to the first one that ends a block. -/
def Closed (ws : List Word) : Prop := ∃ body, ws = body ++ [endOfBlock] ∧ endOfBlock ∉ body

lemma Closed.of_end (hkind : t.kind = .text) (htext : t.text = endWord) :
    Closed ([t].map Token.word) :=
  ⟨[], congrArg (fun w => [w]) (show t.word = endOfBlock from Prod.ext hkind htext), List.not_mem_nil⟩

lemma Closed.cons {w : Word} (hw : w ≠ endOfBlock) (h : Closed ws) : Closed (w :: ws) := by
  obtain ⟨body, rfl, hbody⟩ := h
  exact ⟨w :: body, rfl, by simp [hw.symm, hbody]⟩

lemma Closed.append_inj {ms ms' : List Word} (h : Closed ws) (h' : Closed ws')
    (heq : ws ++ ms = ws' ++ ms') : ws = ws' ∧ ms = ms' := by
  obtain ⟨body, rfl, hbody⟩ := h
  obtain ⟨body', rfl, hbody'⟩ := h'
  rw [List.append_assoc, List.append_assoc] at heq
  obtain ⟨rfl, rfl⟩ := append_cons_inj hbody hbody' heq
  exact ⟨rfl, rfl⟩

/-- Whether a reader takes these tokens for a value, whatever stands behind them. -/
def Takes (reader : List Token → Except CompileError (α × List Token)) (taken : List Token) (a : α) :
    Prop := ∀ rest, reader (taken ++ rest) = .ok (a, rest)

section Readers

/-- A reader of what stands in a block takes all of it, up to the word that ends it. -/
lemma exists_takes_readMembers {done members : List Bytes}
    (h : readMembers finish done ts = .ok (members, rest)) :
    ∃ taken, ts = taken ++ rest ∧ Closed (taken.map Token.word) ∧
      Takes (readMembers finish done) taken members := by
  fun_induction readMembers finish done ts with
  | case2 done t ts hend =>
    cases h
    refine ⟨[t], rfl, .of_end hend.1 hend.2, fun rest => ?_⟩
    rw [List.singleton_append, readMembers, if_pos hend]
  | case3 done t ts hend hmember ih =>
    obtain ⟨taken, rfl, hclosed, htakes⟩ := ih h
    refine ⟨t :: taken, rfl, hclosed.cons fun hword => hend (Prod.mk.inj hword), fun rest => ?_⟩
    rw [List.cons_append, readMembers, if_neg hend, if_pos hmember]
    exact htakes rest
  | _ => cases h

lemma exists_takes_readRules {kind : RuleKind} {done rules : List Rule}
    (h : readRules finish scope kind done ts = .ok (rules, rest)) :
    ∃ taken, ts = taken ++ rest ∧ Closed (taken.map Token.word) ∧
      Takes (readRules finish scope kind done) taken rules := by
  obtain ⟨lines, new, taken, hts, htaken, hrules⟩ := readRules_iff.mp h
  exact ⟨taken, hts, ⟨_, htaken, endOfBlock_not_mem_lines kind lines⟩, fun rest =>
    readRules_iff.mpr ⟨lines, new, taken, rfl, htaken, hrules⟩⟩

/-- Neither a word with an entry nor what is behind it ends the block. -/
lemma Closed.entry {word value : Token} (h : Closed (ts.map Token.word)) (hend : word.text ≠ endWord)
    (hvalue : value.kind ≠ .text) : Closed ((word :: value :: ts).map Token.word) := by
  have hrest := h.cons fun hword : value.word = endOfBlock => hvalue (congrArg Prod.fst hword)
  exact hrest.cons fun hword : word.word = endOfBlock => hend (congrArg Prod.snd hword)

lemma exists_takes_readEntries {check : Entry → Except CompileError Unit} {done entries : List Entry}
    (h : readEntries finish check done ts = (entries, .ok rest)) :
    ∃ taken, ts = taken ++ rest ∧ Closed (taken.map Token.word) ∧
      ∀ rest, readEntries finish check done (taken ++ rest) = (entries, .ok rest) := by
  -- the reader looks at two tokens at once, so it has a case for an end with nothing behind it
  fun_induction readEntries finish check done ts with
  | case3 done word hkind hend =>
    cases h
    exact ⟨[word], rfl, .of_end (not_not.mp hkind) hend, fun rest =>
      readEntries_of_end done (not_not.mp hkind) hend⟩
  | case6 done word value ts hkind hend =>
    cases h
    exact ⟨[word], rfl, .of_end (not_not.mp hkind) hend, fun rest =>
      readEntries_of_end done (not_not.mp hkind) hend⟩
  | case7 done word value ts hkind hend hquoted ih =>
    obtain ⟨taken, rfl, hclosed, htakes⟩ := ih h
    refine ⟨word :: value :: taken, rfl, hclosed.entry hend (by simp [hquoted]), fun rest => ?_⟩
    rw [List.cons_append, List.cons_append, readEntries, if_neg hkind, if_neg hend, if_pos hquoted]
    exact htakes rest
  | case9 done word value ts hkind hend hquoted hphonemes entry hcheck =>
    rename_i ih
    obtain ⟨taken, rfl, hclosed, htakes⟩ := ih h
    refine ⟨word :: value :: taken, rfl, hclosed.entry hend (by simp [hphonemes]), fun rest => ?_⟩
    rw [List.cons_append, List.cons_append, readEntries, if_neg hkind, if_neg hend, if_neg hquoted,
      if_pos hphonemes]
    simp only [show check ⟨word.text, value.text⟩ = .ok () from hcheck]
    exact htakes rest
  | _ => cases h

end Readers

section Items

lemma expect_cons {kind : TokenKind} (h : t.kind = kind) (rest : List Token) :
    expect finish kind (t :: rest) = .ok (t, rest) := if_pos h

lemma exists_takes_directive (h : takeDirective finish t ts = .ok (i, rest)) :
    ∃ taken, ts = taken ++ rest ∧ Takes (takeDirective finish t) taken i := by
  obtain ⟨⟨body, behind⟩, hbody, h⟩ := Outcome.exists_of_bind_eq_ok h
  obtain ⟨item, hitem, h⟩ := Outcome.exists_of_bind_eq_ok h
  cases h
  obtain ⟨rfl, hkind⟩ := expect_ok hbody
  exact ⟨[body], rfl, fun rest =>
    (Outcome.bind_eq_of_ok (expect_cons hkind rest) _).trans (Outcome.bind_eq_of_ok hitem _)⟩

lemma exists_takes_conditional (h : takeConditional finish scope t ts = .ok (i, rest)) :
    ∃ taken, ts = taken ++ rest ∧ Takes (takeConditional finish scope t) taken i := by
  obtain ⟨⟨flag, first⟩, hfirst, h⟩ := Outcome.exists_of_bind_eq_ok h
  obtain ⟨⟨polarity, name⟩, hname, h⟩ := Outcome.exists_of_bind_eq_ok h
  obtain ⟨⟨word, second⟩, hsecond, h⟩ := Outcome.exists_of_bind_eq_ok h
  obtain ⟨_, hif, h⟩ := Outcome.exists_of_bind_eq_ok h
  obtain ⟨⟨predicate, third⟩, hthird, h⟩ := Outcome.exists_of_bind_eq_ok h
  obtain ⟨locale, hlocale, h⟩ := Outcome.exists_of_bind_eq_ok h
  obtain ⟨item, hitem, h⟩ := Outcome.exists_of_bind_eq_ok h
  cases h
  obtain ⟨rfl, hflag⟩ := expect_ok hfirst
  obtain ⟨rfl, hword⟩ := expect_ok hsecond
  obtain ⟨rfl, hpredicate⟩ := expect_ok hthird
  exact ⟨[flag, word, predicate], rfl, fun rest =>
    (Outcome.bind_eq_of_ok (expect_cons hflag _) _).trans <| (Outcome.bind_eq_of_ok hname _).trans <|
      (Outcome.bind_eq_of_ok (expect_cons hword _) _).trans <| (Outcome.bind_eq_of_ok hif _).trans <|
        (Outcome.bind_eq_of_ok (expect_cons hpredicate _) _).trans <|
          (Outcome.bind_eq_of_ok hlocale _).trans <| Outcome.bind_eq_of_ok hitem _⟩

/-- The block that an item has been read from, if it is one. -/
def Item.block? : Item → Option Block
  | letterClass _ => some .classdef
  | spellingRules _ => some .spelling
  | letterRules _ => some .rules
  | dictionary _ => some .dictionary
  | _ => none

/-- Whether a reader takes items of a kind: always all of a block, up to the first word that ends it. -/
def TakesBlock (reader : List Token → Except CompileError (Item × List Token)) (b : Block) : Prop :=
  ∀ ⦃ts i rest⦄, reader ts = .ok (i, rest) → i.block? = some b ∧
    ∃ taken, ts = taken ++ rest ∧ Closed (taken.map Token.word) ∧ Takes reader taken i

/-- A class has no name that ends a block. -/
lemma takesBlock_class (finish : Token) (scope : Scope) :
    TakesBlock (takeClass finish scope) .classdef := by
  intro ts i rest h
  obtain ⟨⟨name, behind⟩, hname, h⟩ := Outcome.exists_of_bind_eq_ok h
  obtain ⟨id, hid, h⟩ := Outcome.exists_of_bind_eq_ok h
  obtain ⟨⟨members, last⟩, hmembers, h⟩ := Outcome.exists_of_bind_eq_ok h
  cases h
  obtain ⟨rfl, hkind⟩ := expect_ok hname
  obtain ⟨taken, rfl, hclosed, htakes⟩ := exists_takes_readMembers hmembers
  refine ⟨rfl, name :: taken, rfl, hclosed.cons fun hword => ?_, fun rest => ?_⟩
  · rw [classId, show name.text = endWord from congrArg Prod.snd hword] at hid
    cases hid
  · exact (Outcome.bind_eq_of_ok (expect_cons hkind _) _).trans <|
      (Outcome.bind_eq_of_ok hid _).trans <| Outcome.bind_eq_of_ok (htakes rest) _

lemma takesBlock_rules (finish : Token) (scope : Scope) (kind : RuleKind) :
    TakesBlock (takeRules finish scope kind) kind.block := by
  intro ts i rest h
  obtain ⟨⟨rules, behind⟩, hrules, h⟩ := Outcome.exists_of_bind_eq_ok h
  obtain ⟨taken, hts, hclosed, htakes⟩ := exists_takes_readRules hrules
  cases kind
  all_goals
    cases h
    exact ⟨rfl, taken, hts, hclosed, fun rest => Outcome.bind_eq_of_ok (htakes rest) _⟩

lemma takesBlock_readDictionary (finish : Token) (scope : Scope) (format : Token) :
    TakesBlock (readDictionary finish scope format) .dictionary := by
  intro ts i rest h
  dsimp only [readDictionary] at h
  split at h
  · cases h
  · rename_i entries last hentries
    cases h
    obtain ⟨taken, hts, hclosed, htakes⟩ := exists_takes_readEntries hentries
    refine ⟨rfl, taken, hts, hclosed, fun rest => ?_⟩
    dsimp only [readDictionary]
    rw [htakes rest]

/-- No dictionary has a format that ends a block. -/
lemma takesBlock_dictionary (finish : Token) (scope : Scope) :
    TakesBlock (takeDictionary finish scope) .dictionary := by
  intro ts i rest h
  obtain ⟨⟨format, behind⟩, hformat, h⟩ := Outcome.exists_of_bind_eq_ok h
  obtain ⟨_, hknown, hread⟩ := Outcome.exists_of_bind_eq_ok h
  obtain ⟨rfl, hkind⟩ := expect_ok hformat
  obtain ⟨hblock, taken, rfl, hclosed, htakes⟩ := takesBlock_readDictionary _ _ _ hread
  refine ⟨hblock, format :: taken, rfl, hclosed.cons fun hword => ?_, fun rest => ?_⟩
  · rw [formatOf, show format.text = endWord from congrArg Prod.snd hword] at hknown
    cases hknown
  · exact (Outcome.bind_eq_of_ok (expect_cons hkind _) _).trans <|
      (Outcome.bind_eq_of_ok hknown _).trans (htakes rest)

/-- What reads a block behind its keyword. Phonemes are no block of languages. -/
def blockReader (finish : Token) (scope : Scope) (t : Token) :
    Block → List Token → Except CompileError (Item × List Token)
  | .classdef => takeClass finish scope
  | .spelling => takeRules finish scope .spelling
  | .rules => takeRules finish scope .letter
  | .dictionary => takeDictionary finish scope
  | .phoneme => fun _ => .error ⟨.unexpected t, t.position⟩

lemma takeItem_of_block {b : Block} (h : t.word = b.keyword) :
    takeItem finish scope t = blockReader finish scope t b := by
  obtain ⟨hkind, htext⟩ := Prod.mk.inj h
  funext ts
  rw [takeItem, hkind, htext]
  cases b <;> rfl

lemma takesBlock_item {b : Block} (h : t.word = b.keyword) :
    TakesBlock (takeItem finish scope t) b := by
  rw [takeItem_of_block h]
  cases b with
  | classdef => exact takesBlock_class finish scope
  | spelling => exact takesBlock_rules finish scope .spelling
  | rules => exact takesBlock_rules finish scope .letter
  | dictionary => exact takesBlock_dictionary finish scope
  | phoneme => exact fun _ _ _ h => nomatch h

/-- Every item ends where its own words do. -/
theorem exists_takes_item (h : takeItem finish scope t ts = .ok (i, rest)) :
    ∃ taken, ts = taken ++ rest ∧ Takes (takeItem finish scope t) taken i := by
  have hblock {b : Block} (hkind : ¬t.kind ≠ .text) (htext : t.text = Bytes.ofString b.name) :
      ∃ taken, ts = taken ++ rest ∧ Takes (takeItem finish scope t) taken i := by
    have hword : t.word = b.keyword := Prod.ext (not_not.mp hkind) htext
    obtain ⟨-, taken, hts, -, htakes⟩ := takesBlock_item hword h
    exact ⟨taken, hts, htakes⟩
  -- blocks are all alike; only directives and conditionals end without a word for it
  have hitem := h
  unfold takeItem at hitem
  split at hitem
  · rename_i hkind
    rw [show takeItem finish scope t = takeDirective finish t from funext fun ts => if_pos hkind]
    exact exists_takes_directive hitem
  split at hitem
  · cases hitem
  rename_i hkind
  split at hitem
  · exact hblock hkind ‹_›
  rename_i hclass
  split at hitem
  · rename_i hdirective htext
    have heq : takeItem finish scope t = takeConditional finish scope t := funext fun ts => by
      rw [takeItem, if_neg hdirective, if_neg hkind, if_neg hclass, if_pos htext]
    rw [heq]
    exact exists_takes_conditional hitem
  split at hitem
  · exact hblock hkind ‹_›
  split at hitem
  · exact hblock hkind ‹_›
  split at hitem
  · exact hblock hkind ‹_›
  · cases hitem

end Items

/-! ## What a block asks of the scope -/

section Scopes

/-- Whether two scopes are the same for a block. Only classes ask which classes there are. -/
structure Scope.SameFor (b : Block) (s s' : Scope) : Prop where
  alphabet : s'.alphabet = s.alphabet
  names : s'.names = s.names
  classes : b = .classdef → s'.classes = s.classes

lemma Scope.SameFor.symm {b : Block} (h : Scope.SameFor b scope scope') :
    Scope.SameFor b scope' scope :=
  ⟨h.alphabet.symm, h.names.symm, fun hb => (h.classes hb).symm⟩

lemma readRules_classes (a : Option Alphabet) (names : List Bytes) (classes classes' : List UInt8)
    (kind : RuleKind) (done : List Rule) (ts : List Token) :
    readRules finish ⟨a, names, classes'⟩ kind done ts =
      readRules finish ⟨a, names, classes⟩ kind done ts := by
  fun_induction readRules finish ⟨a, names, classes⟩ kind done ts with
  | case1 => rw [readRules]
  | case2 done pattern ts hkind => rw [readRules, if_pos hkind]
  | case3 done pattern ts hkind hend => rw [readRules, if_neg hkind, if_pos hend]
  | case4 done pattern ts hkind hend e htake =>
    have htake' : takeRule finish ⟨a, names, classes'⟩ kind pattern ts = .error e := htake
    rw [readRules_cons done (not_not.mp hkind) hend, htake']
    rfl
  | case5 done pattern ts hkind hend rule behind htake ih =>
    have htake' : takeRule finish ⟨a, names, classes'⟩ kind pattern ts = .ok (rule, behind) := htake
    rw [readRules_cons done (not_not.mp hkind) hend, Outcome.bind_eq_of_ok htake']
    exact ih

lemma takeItem_congr {b : Block} (hword : t.word = b.keyword) (h : Scope.SameFor b scope scope') :
    takeItem finish scope' t = takeItem finish scope t := by
  obtain ⟨a, names, classes⟩ := scope
  obtain ⟨a', names', classes'⟩ := scope'
  obtain ⟨rfl, rfl, hclasses⟩ := h
  rw [takeItem_of_block hword, takeItem_of_block hword]
  funext ts
  cases b with
  | classdef =>
    obtain rfl := hclasses rfl
    rfl
  | spelling => simp only [blockReader, takeRules, readRules_classes a' names' classes]
  | rules => simp only [blockReader, takeRules, readRules_classes a' names' classes]
  | dictionary => rfl
  | phoneme => rfl

/-- A block leaves the scope as it is for blocks of other kinds. -/
lemma sameFor_after {b b' : Block} (hi : i.block? = some b) (hne : b ≠ b') (scope : Scope) :
    Scope.SameFor b' scope (scope.after i) := by
  cases i with
  | letterClass c =>
    obtain rfl := Option.some.inj hi
    exact ⟨rfl, rfl, fun h => absurd h.symm hne⟩
  | locale _ | alphabet _ | conditional _ => cases hi
  | spellingRules _ | letterRules _ | dictionary _ => exact ⟨rfl, rfl, fun _ => rfl⟩

lemma after_comm {j : Item} {b b' : Block} (hi : i.block? = some b) (hj : j.block? = some b')
    (hne : b ≠ b') (scope : Scope) : (scope.after i).after j = (scope.after j).after i := by
  cases i <;> cases hi <;> cases j <;> cases hj <;> first | rfl | exact absurd rfl hne

/-- Items of which each says what the other one leaves open define the same in either order. -/
lemma ofItems_swap {j : Item} {b b' : Block} (hi : i.block? = some b) (hj : j.block? = some b')
    (hne : b ≠ b') (before behind : List Item) :
    Definition.ofItems (before ++ i :: j :: behind) =
      Definition.ofItems (before ++ j :: i :: behind) := by
  have hvalues {β : Type} (f : Item → Option β) (h : f i = none ∨ f j = none) :
      (before ++ i :: j :: behind).filterMap f = (before ++ j :: i :: behind).filterMap f := by
    rcases h with h | h <;> simp [List.filterMap_cons, h]
  have hlists {β : Type} (f : Item → List β) (h : f i = [] ∨ f j = []) :
      (before ++ i :: j :: behind).flatMap f = (before ++ j :: i :: behind).flatMap f := by
    rcases h with h | h <;> simp [h]
  rw [Definition.ofItems, hvalues, hvalues, hvalues, hvalues, hlists, hlists, hlists]
  · rfl
  all_goals
    cases i <;> cases hi <;> cases j <;> cases hj <;> first
      | exact .inl rfl
      | exact .inr rfl
      | exact absurd rfl hne

end Scopes

/-! ## Sources as the words of items -/

section Sources

/-- Whether words are those of an item, in a scope. -/
def Says (scope : Scope) (ws : List Word) (i : Item) : Prop :=
  ∃ finish t ts, (t :: ts).map Token.word = ws ∧ takeItem finish scope t ts = .ok (i, [])

/-- Whether words are those of items, one behind the other, each in the scope behind those before. -/
inductive SaysAll : Scope → List Word → List Item → Prop
  | nil (scope : Scope) : SaysAll scope [] []
  | cons {scope : Scope} {ws more : List Word} {i : Item} {is : List Item} (hi : Says scope ws i)
      (hmore : SaysAll (scope.after i) more is) : SaysAll scope (ws ++ more) (i :: is)

lemma exists_says (h : takeItem finish scope t ts = .ok (i, rest)) :
    ∃ taken, ts = taken ++ rest ∧ Says scope ((t :: taken).map Token.word) i := by
  obtain ⟨taken, rfl, htakes⟩ := exists_takes_item h
  have hall := htakes []
  rw [List.append_nil] at hall
  exact ⟨taken, rfl, finish, t, taken, rfl, hall⟩

/-- An item is read from its words, whatever stands behind them. -/
lemma Says.takeItem {us : List Token} (h : Says scope ws i) (hus : us.map Token.word = ws ++ more)
    (finish : Token) : ∃ u us' rest, us = u :: us' ∧ rest.map Token.word = more ∧
      takeItem finish scope u us' = .ok (i, rest) := by
  obtain ⟨finish', t, ts, rfl, htake⟩ := h
  have hcontinues : Continues more (t :: ts) us := hus
  obtain ⟨u, us', rfl, hword, hbehind⟩ := hcontinues.exists_cons
  obtain ⟨⟨_, rest⟩, htake', rfl, hrest⟩ := takeItem_carries hword hbehind _ htake
  exact ⟨u, us', rest, rfl, hrest, htake'⟩

/-- Tokens are read as items just if their words are those of the items. -/
theorem readItems_iff {done : List Item} : readItems finish scope done ts = .ok is ↔
    ∃ new, is = done.reverse ++ new ∧ SaysAll scope (ts.map Token.word) new := by
  constructor
  · intro h
    fun_induction readItems finish scope done ts with
    | case1 scope done =>
      cases h
      exact ⟨[], by simp, .nil scope⟩
    | case2 => cases h
    | case3 scope done t ts item behind htake ih =>
      obtain ⟨new, rfl, hnew⟩ := ih h
      obtain ⟨taken, rfl, hitem⟩ := exists_says htake
      refine ⟨item :: new, by simp, ?_⟩
      have hall := SaysAll.cons hitem hnew
      rwa [← List.map_append, List.cons_append] at hall
  · rintro ⟨new, rfl, hnew⟩
    generalize hws : ts.map Token.word = ws at hnew
    induction hnew generalizing done ts with
    | nil =>
      obtain rfl := List.map_eq_nil_iff.mp hws
      simp [readItems]
    | cons hi _ ih =>
      obtain ⟨t, ts, rest, rfl, hrest, htake⟩ := hi.takeItem hws finish
      rw [readItems_cons, Outcome.bind_eq_of_ok htake]
      refine (ih hrest).trans ?_
      simp

/-- What a source says that goes on behind complete items. -/
lemma items_behind_iff {preamble source : Bytes} {before : List Item}
    (hbefore : items preamble = .ok before) (h : wording source = wording preamble ++ more) :
    items source = .ok is ↔
      ∃ new, is = before ++ new ∧ SaysAll (before.foldl Scope.after Scope.empty) more new := by
  obtain ⟨us, rfl, heq⟩ := items_of_wording hbefore h
  rw [heq, readItems_iff, List.reverse_reverse]

end Sources

/-! ## Blocks side by side -/

section Blocks

variable {b b' : Block}

/-- Whether words are those of a complete block. -/
def IsBlock (b : Block) (ws : List Word) : Prop := ∃ inner, ws = b.keyword :: inner ∧ Closed inner

/-- The words of a block are those of one item. -/
lemma IsBlock.exists_says (hws : IsBlock b ws) (h : SaysAll scope (ws ++ more) is) :
    ∃ i js, is = i :: js ∧ i.block? = some b ∧ Says scope ws i ∧ SaysAll (scope.after i) more js := by
  obtain ⟨inner, rfl, hclosed⟩ := hws
  generalize hall : b.keyword :: inner ++ more = all at h
  cases h with
  | nil => cases hall
  | @cons _ _ _ i js hi hmore =>
    obtain ⟨finish, t, ts, rfl, htake⟩ := hi
    obtain ⟨hword, hinner⟩ := List.cons.inj hall
    obtain ⟨hblock, taken, hts, hclosed', -⟩ := takesBlock_item hword.symm htake
    rw [List.append_nil] at hts
    obtain rfl := hts
    obtain ⟨rfl, rfl⟩ := hclosed.append_inj hclosed' hinner
    exact ⟨i, js, rfl, hblock, ⟨finish, t, ts, congrArg (· :: _) hword.symm, htake⟩, hmore⟩

/-- What a block says depends only on what blocks of its kind ask of the scope. -/
lemma IsBlock.says_congr (hws : IsBlock b ws) (hscope : Scope.SameFor b scope scope')
    (h : Says scope ws i) : Says scope' ws i := by
  obtain ⟨inner, rfl, -⟩ := hws
  obtain ⟨finish, t, ts, hwords, htake⟩ := h
  refine ⟨finish, t, ts, hwords, ?_⟩
  rw [takeItem_congr (List.cons.inj hwords).1 hscope]
  exact htake

/-- Blocks of different kinds say the same in either order. -/
theorem SaysAll.swap (hws : IsBlock b ws) (hws' : IsBlock b' ws') (hne : b ≠ b')
    (h : SaysAll scope (ws ++ (ws' ++ more)) is) :
    ∃ i j js, is = i :: j :: js ∧ i.block? = some b ∧ j.block? = some b' ∧
      SaysAll scope (ws' ++ (ws ++ more)) (j :: i :: js) := by
  obtain ⟨i, _, rfl, hi, hsays, h⟩ := hws.exists_says h
  obtain ⟨j, js, rfl, hj, hsays', hmore⟩ := hws'.exists_says h
  have hfirst : Says scope ws' j := hws'.says_congr (sameFor_after hi hne scope).symm hsays'
  have hsecond : Says (scope.after j) ws i := hws.says_congr (sameFor_after hj hne.symm scope) hsays
  rw [after_comm hi hj hne] at hmore
  exact ⟨i, j, js, rfl, hi, hj, .cons hfirst (.cons hsecond hmore)⟩

/-- Whether a source is made of whole lines. -/
def WholeLines (source : Bytes) : Prop := ∀ c ∈ source.getLast?, c = Source.lineFeed

/-- Whole lines say what they say, whatever stands on the lines behind them. -/
lemma WholeLines.wording_append {a : Bytes} (h : WholeLines a) (b : Bytes) :
    wording (a ++ b) = wording a ++ wording b := by
  have hdown (n : Nat) (ts : List Token) :
      (ts.map (Token.down n)).map Token.word = ts.map Token.word := by
    rw [List.map_map]
    rfl
  cases a using List.reverseRecOn with
  | nil => simp [wording]
  | append_singleton a c =>
    obtain rfl := h c List.getLast?_concat
    have hline := Source.tokens_append a []
    rw [Source.tokens_nil, List.map_nil, List.append_nil] at hline
    rw [List.append_assoc, List.singleton_append, wording, wording, wording, Source.tokens_append,
      hline, List.map_append, hdown]

variable {preamble first second behind : Bytes}

lemma wording_append_blocks (hpreamble : WholeLines preamble) (hfirst : WholeLines first)
    (hsecond : WholeLines second) : wording (preamble ++ first ++ second ++ behind) =
      wording preamble ++ (wording first ++ (wording second ++ wording behind)) := by
  rw [List.append_assoc, List.append_assoc, hpreamble.wording_append, hfirst.wording_append,
    hsecond.wording_append]

/-- Where two complete blocks of different kinds stand one behind the other, between complete items and
whatever else there is, each on lines of its own, a source that is accepted is accepted as well with
the blocks in the other order. It defines the same then, and compiles to the same bytes. -/
theorem parse_swap_blocks {p d : Definition} (hpreamble : WholeLines preamble)
    (hfirst : WholeLines first) (hsecond : WholeLines second) (hp : parse preamble = .ok p)
    (hb : IsBlock b (wording first)) (hb' : IsBlock b' (wording second)) (hne : b ≠ b')
    (hd : parse (preamble ++ first ++ second ++ behind) = .ok d) :
    parse (preamble ++ second ++ first ++ behind) = .ok d ∧
      compile (preamble ++ second ++ first ++ behind) =
        compile (preamble ++ first ++ second ++ behind) := by
  obtain ⟨before, hbefore, -⟩ := parse_eq_ok_iff.mp hp
  obtain ⟨is, his, hdefines⟩ := parse_eq_ok_iff.mp hd
  obtain ⟨new, rfl, hnew⟩ :=
    (items_behind_iff hbefore (wording_append_blocks hpreamble hfirst hsecond)).mp his
  obtain ⟨i, j, js, rfl, hi, hj, hswapped⟩ := hnew.swap hb hb' hne
  have hitems : items (preamble ++ second ++ first ++ behind) = .ok (before ++ j :: i :: js) :=
    (items_behind_iff hbefore (wording_append_blocks hpreamble hsecond hfirst)).mpr
      ⟨_, rfl, hswapped⟩
  have hparse : parse (preamble ++ second ++ first ++ behind) = .ok d :=
    parse_eq_ok_iff.mpr ⟨_, hitems, (ofItems_swap hj hi hne.symm before js).trans hdefines⟩
  exact ⟨hparse, by rw [compile, compile, hparse, hd]⟩

/-- A class and a rule with a guard, behind the conditional that the guard asks for. -/
theorem parse_swap_blocks_class :
    let settings := Bytes.ofString ".phonemeset\txsampa\n" ++ flagSource
    let vowels := Bytes.ofString "classdef V\na e\nend\n"
    let rules := Bytes.ofString "rules\na\t/a/\t@b\nend\n"
    let words := Bytes.ofString "dictionary cainteoir\nab\t/a/\nend"
    let d : Definition := ⟨[], Bytes.ofString "xsampa", [flag],
      [⟨0x56, [Bytes.ofString "a", Bytes.ofString "e"]⟩], [],
      [⟨0x61, [0x40, 1, 0x61], Bytes.ofString "a"⟩], [⟨Bytes.ofString "ab", Bytes.ofString "a"⟩]⟩
    WholeLines settings ∧ WholeLines vowels ∧ WholeLines rules ∧
      parse settings = .ok ⟨[], Bytes.ofString "xsampa", [flag], [], [], [], []⟩ ∧
      IsBlock .classdef (wording vowels) ∧ IsBlock .rules (wording rules) ∧
      parse (settings ++ vowels ++ rules ++ words) = .ok d ∧
      parse (settings ++ rules ++ vowels ++ words) = .ok d ∧
      compile (settings ++ rules ++ vowels ++ words) =
        compile (settings ++ vowels ++ rules ++ words) := by
  intro settings vowels rules words d
  have hsettings : WholeLines settings := by unfold WholeLines; decide +kernel
  have hvowels : WholeLines vowels := by unfold WholeLines; decide +kernel
  have hrules : WholeLines rules := by unfold WholeLines; decide +kernel
  have hp : parse settings = .ok ⟨[], Bytes.ofString "xsampa", [flag], [], [], [], []⟩ := by
    decide +kernel
  have hb : IsBlock .classdef (wording vowels) :=
    ⟨_, by decide +kernel, [(.text, Bytes.ofString "V"), (.text, Bytes.ofString "a"),
      (.text, Bytes.ofString "e")], rfl, by decide +kernel⟩
  have hb' : IsBlock .rules (wording rules) :=
    ⟨_, by decide +kernel, [(.text, Bytes.ofString "a"), (.phonemes, Bytes.ofString "a"),
      (.text, Bytes.ofString "@b")], rfl, by decide +kernel⟩
  have hd : parse (settings ++ vowels ++ rules ++ words) = .ok d := by decide +kernel
  exact ⟨hsettings, hvowels, hrules, hp, hb, hb', hd,
    parse_swap_blocks hsettings hvowels hrules hp hb hb' (by decide) hd⟩

end Blocks

end Language

end LetterToSound
