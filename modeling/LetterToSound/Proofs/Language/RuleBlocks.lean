import Mathlib
import LetterToSound.Proofs.Language.RuleLines

/-!
# Blocks of rules

Two blocks of rules of one kind, one behind the other, say the same as one block with the lines of
both: unless the first block ends with a rule without a guard and the second one starts with a pattern
that starts as guards do. Then the pattern would become the guard of that rule.
-/

namespace LetterToSound.Language

open Outcome (Carries)
open Source (endWord wording)

variable {finish finish' t u : Token} {ts us rest : List Token} {scope : Scope} {kind : RuleKind}
  {more : List Word}

lemma readRules_carries (done : List Rule) (h : Continues more ts us) :
    Carries (Behind Eq more) (readRules finish scope kind done ts)
      (readRules finish' scope kind done us) := by
  rintro ⟨rules, rest⟩ hread
  obtain ⟨lines, new, taken, rfl, htaken, hrules, hmakes, hseparated⟩ := readRules_iff.mp hread
  rw [Continues, List.map_append, List.append_assoc] at h
  obtain ⟨taken', rest', rfl, htaken', hrest⟩ := List.map_eq_append_iff.mp h
  exact ⟨(rules, rest'), readRules_iff.mpr ⟨lines, new, taken', rfl, htaken'.trans htaken, hrules,
    hmakes, hseparated⟩, rfl, hrest⟩

lemma takeRules_carries (h : Continues more ts us) :
    Carries (Behind Eq more) (takeRules finish scope kind ts) (takeRules finish' scope kind us) := by
  refine (readRules_carries [] h).bind ?_
  rintro ⟨rules, rest⟩ ⟨_, rest'⟩ ⟨rfl, hrest⟩
  cases kind
  all_goals exact .of_ok fun p hp => by cases hp; exact ⟨rfl, hrest⟩

/-- A complete item is read from its words, whatever stands behind them. -/
theorem takeItem_carries (hword : Alike t u) (h : Continues more ts us) :
    Carries (Behind Eq more) (takeItem finish scope t ts) (takeItem finish' scope u us) := by
  rw [takeItem, takeItem, Token.kind_eq hword, Token.text_eq hword]
  split
  · exact takeDirective_carries hword h
  split
  · exact .of_error
  split
  · exact takeClass_carries h
  split
  · exact takeConditional_carries h
  split
  · exact takeRules_carries h
  split
  · exact takeRules_carries h
  split
  · exact takeDictionary_carries h
  · exact .of_error

lemma readItems_cons (done : List Item) : readItems finish scope done (t :: ts) =
    takeItem finish scope t ts >>= fun (item, rest) =>
      readItems finish (scope.after item) (item :: done) rest := by
  rw [readItems]
  split
  all_goals
    rename_i htake
    rw [htake]
    rfl

/-- Items that can be read are read first in every source that goes on behind them. -/
theorem readItems_of_continues {done is : List Item} (finish' : Token) (h : Continues more ts us)
    (hread : readItems finish scope done ts = .ok is) :
    ∃ new us', is = done.reverse ++ new ∧ us'.map Token.word = more ∧
      readItems finish' scope done us =
        readItems finish' (new.foldl Scope.after scope) is.reverse us' := by
  fun_induction readItems finish scope done ts generalizing us with
  | case1 scope done =>
    cases hread
    exact ⟨[], us, by simp, h, by simp⟩
  | case2 => cases hread
  | case3 scope done t ts item rest htake ih =>
    obtain ⟨u, us, rfl, hword, hrest⟩ := h.exists_cons
    obtain ⟨⟨_, rest'⟩, htake', rfl, hbehind⟩ := takeItem_carries hword hrest _ htake
    obtain ⟨new, us', rfl, hmore, heq⟩ := ih hbehind hread
    refine ⟨item :: new, us', by simp, hmore, ?_⟩
    rw [readItems_cons, Outcome.bind_eq_of_ok htake']
    exact heq

lemma items_of_wording {preamble source : Bytes} {is : List Item} (hitems : items preamble = .ok is)
    (h : wording source = wording preamble ++ more) :
    ∃ us, us.map Token.word = more ∧ items source =
      readItems (Source.endToken source) (is.foldl Scope.after Scope.empty) is.reverse us := by
  obtain ⟨new, us, hnew, hmore, heq⟩ :=
    readItems_of_continues (Source.endToken source) h hitems
  obtain rfl : is = new := by simpa using hnew
  exact ⟨us, hmore, heq⟩

section Lines

variable {line : RuleLine} {lines : List RuleLine} {rule : Rule} {rules rules' : List Rule}
  {ws ws' : List Word}

/-- The rule of a line has a guard just if the line has one. -/
lemma RuleLine.Makes.isGuarded_iff (h : line.Makes scope kind rule) :
    rule.IsGuarded ↔ line.guard.isSome := by
  obtain ⟨guard, stored, hknown, hstored, rfl, -⟩ := h
  obtain ⟨-, hbytes, hstarts, rest, hanchor⟩ := StoredPattern.ofSource_ok hstored
  have hnone := StoredPattern.ofByte?_of_startsAnchor hstarts
  rw [Rule.IsGuarded, startsAsGuard, hbytes, StoredPattern.encode, hanchor]
  unfold RuleLine.guardIn? at hknown
  split at hknown
  · rename_i hguard
    cases hknown
    simp [hguard, hnone]
  · rename_i hguard
    obtain ⟨id, -, rfl⟩ := Option.map_eq_some_iff.mp hknown
    simp [hguard, Guard.bytes]

lemma RuleLine.endOfBlock_not_mem_words (kind : RuleKind) (line : RuleLine) :
    endOfBlock ∉ line.words kind := by
  have hpattern := line.ne_end.symm
  have hreplacement := kind.replacement_ne_text.symm
  have hguard (polarity : Polarity) (name : Bytes) : endWord ≠ polarity.byte :: name := by
    have hword : endWord = [101, 110, 100] := by decide
    rw [hword]
    cases polarity <;> simp [Polarity.byte]
  unfold words tail
  split <;> simp [endOfBlock, hpattern, hreplacement, hguard]

lemma endOfBlock_not_mem_lines (kind : RuleKind) (lines : List RuleLine) :
    endOfBlock ∉ lines.flatMap (RuleLine.words kind) := by
  simp [RuleLine.endOfBlock_not_mem_words]

/-- Words that are read as rules when they stand in a block. -/
def ReadAs (scope : Scope) (kind : RuleKind) (ws : List Word) (rules : List Rule) : Prop :=
  ∃ lines : List RuleLine, lines.flatMap (RuleLine.words kind) = ws ∧
    List.Forall₂ (RuleLine.Makes scope kind) lines rules ∧ RuleLine.Separated lines

/-- How many words a rule has been read from. -/
def Rule.width (r : Rule) : Nat := if startsAsGuard r.pattern then 3 else 2

lemma RuleLine.Makes.length_words (h : line.Makes scope kind rule) :
    (line.words kind).length = rule.width := by
  have hguarded := h.isGuarded_iff
  rw [Rule.IsGuarded] at hguarded
  unfold words tail
  split
  all_goals
    rename_i hguard
    simp [Rule.width, hguarded, hguard]

lemma length_lines_of_makes (h : List.Forall₂ (RuleLine.Makes scope kind) lines rules) :
    (lines.flatMap (RuleLine.words kind)).length = (rules.map Rule.width).sum := by
  induction h with
  | nil => rfl
  | cons hline _ ih =>
    rw [List.flatMap_cons, List.length_append, hline.length_words, ih, List.map_cons, List.sum_cons]

lemma forall_getLast?_iff (h : List.Forall₂ (RuleLine.Makes scope kind) lines rules) (p : Prop) :
    (∀ r ∈ rules.getLast?, r.IsGuarded ∨ p) ↔ ∀ line ∈ lines.getLast?, line.guard.isSome ∨ p := by
  rw [List.getLast?_eq_head?_reverse, List.getLast?_eq_head?_reverse]
  have hreverse := List.forall₂_reverse_iff.mpr h
  generalize rules.reverse = rs at hreverse
  generalize lines.reverse = ls at hreverse
  cases hreverse with
  | nil => simp
  | cons hline _ => simp [hline.isGuarded_iff]

lemma separated_append_iff {lines' : List RuleLine} : RuleLine.Separated (lines ++ lines') ↔
    RuleLine.Separated lines ∧ RuleLine.Separated lines' ∧
      ∀ line ∈ lines.getLast?, line.guard.isSome ∨
        Quiet (lines'.flatMap (RuleLine.words kind)) := by
  rw [RuleLine.Separated, List.isChain_append, quiet_words_iff]
  simp only [forall_or_left, RuleLine.Separated]

/-- Words that are read as some rules, and others behind them, are read together as all of these, unless
the last line of the first ones takes a word of the others for its guard. -/
theorem readAs_append_iff (h : ReadAs scope kind ws rules) (h' : ReadAs scope kind ws' rules') :
    ReadAs scope kind (ws ++ ws') (rules ++ rules') ↔
      ∀ r ∈ rules.getLast?, r.IsGuarded ∨ Quiet ws' := by
  obtain ⟨lines, rfl, hmakes, hseparated⟩ := h
  obtain ⟨lines', rfl, hmakes', hseparated'⟩ := h'
  constructor
  · rintro ⟨all, hwords, hall, hsep⟩
    -- a line has as many words as its rule shows, so the lines of all divide as the rules do
    have hfirst := List.forall₂_take_append all rules rules' hall
    have hsecond := List.forall₂_drop_append all rules rules' hall
    rw [← List.take_append_drop rules.length all, List.flatMap_append] at hwords
    rw [← List.take_append_drop rules.length all, separated_append_iff] at hsep
    have hlength := (length_lines_of_makes hfirst).trans (length_lines_of_makes hmakes).symm
    obtain ⟨-, hbehind⟩ := List.append_inj hwords hlength
    rw [forall_getLast?_iff hfirst, ← hbehind]
    exact hsep.2.2
  · intro hjoint
    refine ⟨lines ++ lines', List.flatMap_append, List.rel_append hmakes hmakes', ?_⟩
    exact separated_append_iff.mpr
      ⟨hseparated, hseparated', (forall_getLast?_iff hmakes _).mp hjoint⟩

end Lines

namespace RuleKind

/-- The word that starts a block. -/
def keyword (kind : RuleKind) : Word := (.text, Bytes.ofString kind.block.name)

/-- The item that a block makes. -/
def item : RuleKind → List Rule → Item
  | spelling, rules => .spellingRules rules
  | letter, rules => .letterRules rules

end RuleKind

/-- The words of a block of lines. -/
def blockWords (kind : RuleKind) (lines : List RuleLine) : List Word :=
  kind.keyword :: (lines.flatMap (RuleLine.words kind) ++ [endOfBlock])

section Blocks

variable {done is : List Item} {rules : List Rule} {lines : List RuleLine}

lemma takeItem_of_keyword (h : t.word = kind.keyword) : takeItem finish scope t ts =
    (readRules finish scope kind [] ts).map fun (rules, rest) => (kind.item rules, rest) := by
  obtain ⟨hkind, htext⟩ := Prod.mk.inj h
  have hrules : takeItem finish scope t ts = takeRules finish scope kind ts := by
    rw [takeItem, hkind, htext]
    cases kind <;> rfl
  rw [hrules, takeRules]
  cases readRules finish scope kind [] ts with
  | error e => rfl
  | ok p => cases kind <;> rfl

/-- Lists that are cut at the first place of an element are cut in the same way. -/
lemma append_cons_inj {α : Type} {a : α} {xs ys xs' ys' : List α} (h : a ∉ xs) (h' : a ∉ xs')
    (heq : xs ++ a :: ys = xs' ++ a :: ys') : xs = xs' ∧ ys = ys' := by
  obtain ⟨c, rfl, hc⟩ | ⟨c, rfl, hc⟩ := List.append_eq_append_iff.mp heq
  all_goals
    cases c with
    | nil => simpa [eq_comm] using hc
    | cons b c =>
      obtain ⟨rfl, -⟩ := List.cons.inj hc
      simp at h h'

/-- Behind the word that starts a block its rules are read, and then further items. -/
lemma readItems_of_keyword (done : List Item) (h : t.word = kind.keyword) :
    readItems finish scope done (t :: ts) = readRules finish scope kind [] ts >>=
      fun (rules, rest) => readItems finish scope (kind.item rules :: done) rest := by
  have hafter (rules : List Rule) : scope.after (kind.item rules) = scope := by cases kind <;> rfl
  rw [readItems_cons, takeItem_of_keyword h]
  cases readRules finish scope kind [] ts with
  | error e => rfl
  | ok p => exact congrArg (readItems finish · (kind.item p.1 :: done) p.2) (hafter p.1)

/-- The tokens of a block are read as its rules, and what stands behind them as further items. -/
theorem readItems_block_iff {taken : List Token} (h : taken.map Token.word = blockWords kind lines) :
    readItems finish scope done (taken ++ rest) = .ok is ↔
      ∃ rules, ReadAs scope kind (lines.flatMap (RuleLine.words kind)) rules ∧
        readItems finish scope (kind.item rules :: done) rest = .ok is := by
  obtain ⟨t, body, rfl, ht, hbody⟩ := List.map_eq_cons_iff.mp h
  rw [List.cons_append, readItems_of_keyword done ht]
  constructor
  · intro h
    obtain ⟨⟨rules, rest'⟩, hrules, hread⟩ := Outcome.exists_of_bind_eq_ok h
    obtain ⟨lines', _, taken, hsplit, htaken, rfl, hmakes, hseparated⟩ := readRules_iff.mp hrules
    have hwords := congrArg (List.map Token.word) hsplit
    rw [List.map_append, List.map_append, hbody, htaken, List.append_assoc, List.append_assoc]
      at hwords
    obtain ⟨hlines, -⟩ := append_cons_inj (endOfBlock_not_mem_lines kind lines)
      (endOfBlock_not_mem_lines kind lines') hwords
    have hlength : body.length = taken.length := by
      rw [← List.length_map (f := Token.word), hbody, hlines, ← htaken, List.length_map]
    obtain ⟨-, rfl⟩ := List.append_inj hsplit hlength
    exact ⟨rules, ⟨lines', hlines.symm, hmakes, hseparated⟩, hread⟩
  · rintro ⟨rules, ⟨lines', hlines, hmakes, hseparated⟩, hread⟩
    have hrules : readRules finish scope kind [] (body ++ rest) = .ok (rules, rest) :=
      readRules_iff.mpr ⟨lines', rules, body, rfl, by rw [hbody, hlines], rfl, hmakes, hseparated⟩
    exact (Outcome.bind_eq_of_ok hrules _).trans hread

/-- A definition with further rules of a kind. -/
def Definition.addRules (kind : RuleKind) (d : Definition) (rules : List Rule) : Definition :=
  match kind with
  | .spelling => { d with spellingRules := d.spellingRules ++ rules }
  | .letter => { d with letterRules := d.letterRules ++ rules }

lemma ofItems_concat (before : List Item) (kind : RuleKind) (rules : List Rule) :
    Definition.ofItems (before ++ [kind.item rules]) =
      (Definition.ofItems before).addRules kind rules := by
  have hvalues {β : Type} (f : Item → Option β) (h : f (kind.item rules) = none) :
      (before ++ [kind.item rules]).filterMap f = before.filterMap f := by
    simp [h]
  have hlists {β : Type} (f : Item → List β) :
      (before ++ [kind.item rules]).flatMap f = before.flatMap f ++ f (kind.item rules) := by
    simp
  rw [Definition.ofItems, hvalues, hvalues, hvalues, hvalues, hlists, hlists, hlists]
  all_goals
    cases kind <;> simp [Definition.addRules, Definition.ofItems, RuleKind.item, Item.locale?,
      Item.alphabet?, Item.conditional?, Item.letterClass?, Item.spellings, Item.letters, Item.entries]

/-- Blocks of one kind define together what one block with all their rules defines. -/
lemma ofItems_blocks_iff (before : List Item) {rules first second : List Rule} :
    Definition.ofItems (before ++ [kind.item rules]) =
        Definition.ofItems (before ++ [kind.item first, kind.item second]) ↔
      rules = first ++ second := by
  have hblocks : before ++ [kind.item first, kind.item second] =
      (before ++ [kind.item first]) ++ [kind.item second] := by simp
  rw [hblocks, ofItems_concat, ofItems_concat, ofItems_concat]
  cases kind <;> simp [Definition.addRules]

lemma parse_eq_ok_iff {source : Bytes} {d : Definition} : parse source = .ok d ↔
    ∃ is, items source = .ok is ∧ Definition.ofItems is = d := Outcome.map_eq_ok_iff

/-- What a source says that goes on behind complete items with a block, and with what it goes on then. -/
lemma items_block_iff {before : List Item} {preamble source : Bytes}
    (hbefore : items preamble = .ok before)
    (h : wording source = wording preamble ++ blockWords kind lines) :
    items source = .ok is ↔ ∃ rules,
      ReadAs (before.foldl Scope.after Scope.empty) kind (lines.flatMap (RuleLine.words kind)) rules ∧
        is = before ++ [kind.item rules] := by
  obtain ⟨tokens, htokens, heq⟩ := items_of_wording hbefore h
  rw [heq, ← List.append_nil tokens, readItems_block_iff htokens]
  simp [readItems, eq_comm]

lemma items_blocks_iff {before : List Item} {preamble source : Bytes} {lines' : List RuleLine}
    (hbefore : items preamble = .ok before)
    (h : wording source = wording preamble ++ (blockWords kind lines ++ blockWords kind lines')) :
    items source = .ok is ↔ ∃ rules rules',
      ReadAs (before.foldl Scope.after Scope.empty) kind (lines.flatMap (RuleLine.words kind)) rules ∧
        ReadAs (before.foldl Scope.after Scope.empty) kind (lines'.flatMap (RuleLine.words kind)) rules' ∧
          is = before ++ [kind.item rules, kind.item rules'] := by
  obtain ⟨tokens, htokens, heq⟩ := items_of_wording hbefore h
  obtain ⟨taken, taken', rfl, htaken, htaken'⟩ := List.map_eq_append_iff.mp htokens
  rw [heq, readItems_block_iff htaken]
  rw [← List.append_nil taken']
  simp only [readItems_block_iff htaken']
  simp [readItems, eq_comm]

end Blocks

/-- Two blocks of rules, one behind the other and both behind complete items, say the same as one block
with the lines of both just if the first one ends with a rule that has a guard, or the second one does
not start with a pattern that looks like one. -/
theorem parse_blocks_iff {preamble split merged : Bytes} {first second : List RuleLine}
    {p d : Definition} (hpreamble : parse preamble = .ok p)
    (hsplit : wording split =
      wording preamble ++ (blockWords kind first ++ blockWords kind second))
    (hmerged : wording merged = wording preamble ++ blockWords kind (first ++ second))
    (hd : parse split = .ok d) :
    ∃ (before : List Item) (rules rules' : List Rule),
      items preamble = .ok before ∧ items split = .ok (before ++ [kind.item rules, kind.item rules']) ∧
      (parse merged = .ok d ↔ ∀ r ∈ rules.getLast?, r.IsGuarded ∨
        ∀ line ∈ second.head?, startsAsGuard line.pattern = false) := by
  obtain ⟨before, hbefore, -⟩ := parse_eq_ok_iff.mp hpreamble
  obtain ⟨is, his, rfl⟩ := parse_eq_ok_iff.mp hd
  obtain ⟨rules, rules', hrules, hrules', rfl⟩ := (items_blocks_iff hbefore hsplit).mp his
  refine ⟨before, rules, rules', hbefore, his, ?_⟩
  rw [← quiet_words_iff kind second, ← readAs_append_iff hrules hrules', parse_eq_ok_iff]
  simp only [items_block_iff hbefore hmerged, List.flatMap_append]
  constructor
  · rintro ⟨_, ⟨all, hall, rfl⟩, heq⟩
    rwa [← (ofItems_blocks_iff before).mp heq]
  · intro hall
    exact ⟨_, ⟨_, hall, rfl⟩, (ofItems_blocks_iff before).mpr rfl⟩

/-- A conditional for guards to ask for. -/
def flagSource : Bytes := Bytes.ofString "set @b if locale=en\n"

def flag : Conditional := ⟨Bytes.ofString "b", 1, .set, Bytes.ofString "en"⟩

/-- A line with a guard. -/
def guardedLine : RuleLine where
  pattern := Bytes.ofString "a"
  ne_end := by decide
  replacement := Bytes.ofString "x"
  guard := some (.behind, .set, Bytes.ofString "b")

/-- The same line without its guard. -/
def plainLine : RuleLine := { guardedLine with guard := none }

/-- A line of which the left context starts as guards do. -/
def exclaimedLine : RuleLine where
  pattern := Bytes.ofString "!)b"
  ne_end := by decide
  replacement := Bytes.ofString "y"
  guard := none

def guardedRule : Rule := ⟨0x61, [0x40, 1, 0x61], Bytes.ofString "x"⟩

def exclaimedRule : Rule := ⟨0x62, Bytes.ofString "b)!", Bytes.ofString "y"⟩

/-- A rule with a guard in front of such a line. -/
theorem parse_blocks_iff_guardedLine :
    let split := flagSource ++ Bytes.ofString
      "rewrite\na\t\"x\"\t@b\nend\nrewrite\n!)b\t\"y\"\nend\n"
    let merged := flagSource ++ Bytes.ofString "rewrite\na\t\"x\"\t@b\n!)b\t\"y\"\nend\n"
    let d : Definition := ⟨[], [], [flag], [], [guardedRule, exclaimedRule], [], []⟩
    parse flagSource = .ok ⟨[], [], [flag], [], [], [], []⟩ ∧
      wording split = wording flagSource ++
        (blockWords .spelling [guardedLine] ++ blockWords .spelling [exclaimedLine]) ∧
      wording merged =
        wording flagSource ++ blockWords .spelling ([guardedLine] ++ [exclaimedLine]) ∧
      parse split = .ok d ∧ parse merged = .ok d := by
  intro split merged d
  have hflag : parse flagSource = .ok ⟨[], [], [flag], [], [], [], []⟩ := by decide +kernel
  have hsplit : wording split = wording flagSource ++
      (blockWords .spelling [guardedLine] ++ blockWords .spelling [exclaimedLine]) := by
    decide +kernel
  have hmerged : wording merged =
      wording flagSource ++ blockWords .spelling ([guardedLine] ++ [exclaimedLine]) := by
    decide +kernel
  have hd : parse split = .ok d := by decide +kernel
  obtain ⟨before, rules, rules', hbefore, hitems, hiff⟩ :=
    parse_blocks_iff hflag hsplit hmerged hd
  have hflagItems : items flagSource = .ok [.conditional flag] := by decide +kernel
  have hsplitItems : items split =
      .ok [.conditional flag, .spellingRules [guardedRule], .spellingRules [exclaimedRule]] := by
    decide +kernel
  rw [hflagItems] at hbefore
  cases hbefore
  rw [hsplitItems] at hitems
  cases hitems
  refine ⟨hflag, hsplit, hmerged, hd, hiff.mpr fun r hr => .inl ?_⟩
  cases hr
  rfl

/-- Without its guard the line takes the pattern behind it for one, and the one block is rejected where
the two are accepted. -/
theorem parse_merged_rejected :
    let split := Bytes.ofString "rewrite\na\t\"x\"\nend\nrewrite\n!)b\t\"y\"\nend\n"
    let merged := Bytes.ofString "rewrite\na\t\"x\"\n!)b\t\"y\"\nend\n"
    wording split = blockWords .spelling [plainLine] ++ blockWords .spelling [exclaimedLine] ∧
      wording merged = blockWords .spelling ([plainLine] ++ [exclaimedLine]) ∧
      (∃ d, parse split = .ok d) ∧
      parse merged = .error ⟨.unknownConditional (Bytes.ofString ")b"), ⟨3, 1⟩⟩ := by
  refine ⟨by decide +kernel, by decide +kernel, ?_, by decide +kernel⟩
  exact ⟨⟨[], [], [], [], [⟨0x61, Bytes.ofString "a", Bytes.ofString "x"⟩, exclaimedRule], [], []⟩,
    by decide +kernel⟩

end LetterToSound.Language
