import Mathlib
import LetterToSound.Proofs.Language.Compiled

/-!
# What holds of every parsed definition

Ids of conditionals are given out while a source is read: the scope behind some of its items knows
the names that these have used, and those of the whole source only go on behind them. So the number
that a name is given at its first appearance is the one that every later use of it gets, in a
conditional as well as in a guard.
-/

namespace LetterToSound.Language

namespace Definition

/-- The names of the conditionals of a definition in the order of their first appearance. -/
def names (d : Definition) : List Bytes := (d.conditionals.map Conditional.name).eraseDups

end Definition

/-- A rule that can be told from one with another guard or of another group: a guard, if there is
one, has an id of the definition, and behind it the pattern starts with the group, which stands for
no guard, no end of the text, no context, no lookahead and no class. -/
structure Rule.Sound (d : Definition) (kind : RuleKind) (r : Rule) : Prop where
  /-- None of `@`, `!`, `_`, `(`, `)` and `{`. -/
  group : r.group ∉ [0x40, 0x21, 0x5F, 0x28, 0x29, 0x7B]
  group_no_class : ¬(0x41 ≤ r.group ∧ r.group ≤ 0x5A)
  pattern : ∃ guard : Option Guard, ∃ rest : Bytes,
    r.pattern = guard.elim [] Guard.bytes ++ r.group :: rest ∧
      (∀ g ∈ guard, ∃ c ∈ d.conditionals, c.id = g.id) ∧
      (kind = .spelling → Pattern.openLookahead ∉ r.group :: rest)

/-- What the loader, the tables of rules and the matchers count on in a definition. -/
structure Definition.Sound (d : Definition) : Prop where
  classes : (d.classes.map LetterClass.id).Nodup
  letters : ∀ c ∈ d.classes, 0x41 ≤ c.id ∧ c.id ≤ 0x5A
  members : ∀ c ∈ d.classes, ∀ m ∈ c.members, m ≠ []
  count : d.names.length ≤ 254
  numbered : ∀ c ∈ d.conditionals, c.id.toNat = d.names.idxOf c.name + 1
  same : ∀ c ∈ d.conditionals, ∀ c' ∈ d.conditionals, c.id = c'.id ↔ c.name = c'.name
  ids : ∀ n, (∃ c ∈ d.conditionals, c.id.toNat = n) ↔ 1 ≤ n ∧ n ≤ d.names.length
  rules : ∀ kind, ∀ r ∈ d.kindRules kind, r.Sound d kind

section Numbers

variable {names more : List Bytes} {name : Bytes}

lemma idxOf_of_prefix (hp : names <+: more) (h : name ∈ names) :
    more.idxOf name = names.idxOf name := by
  obtain ⟨tail, rfl⟩ := hp
  exact List.idxOf_append_of_mem h

lemma idxOf_of_idxOf? {i : Nat} (h : names.idxOf? name = some i) :
    name ∈ names ∧ names.idxOf name = i := by
  have hmem : name ∈ names := by
    by_contra hnot
    rw [List.idxOf?_eq_none_iff.mpr hnot] at h
    cases h
  rw [List.idxOf_eq_getD_idxOf?, h]
  exact ⟨hmem, rfl⟩

lemma eraseDups_concat (names : List Bytes) (name : Bytes) : (names ++ [name]).eraseDups =
    if name ∈ names then names.eraseDups else names.eraseDups ++ [name] := by
  rw [List.eraseDups_append]
  split
  · simp_all [List.removeAll]
  · simp_all [List.removeAll, List.eraseDups_cons]

end Numbers

namespace Scope

variable {texts : List Bytes} {scope : Scope} {name : Bytes} {id : UInt8}

lemma toNat_ofNat_succ {n : Nat} (h : n < maxId) : (UInt8.ofNat (n + 1)).toNat = n + 1 :=
  UInt8.toNat_ofNat_of_lt' ((Nat.succ_lt_succ h).trans (by decide))

/-- The id of a name is its number in the scope, counted from one. -/
lemma toNat_of_id? (hscope : scope.Numbered) (h : scope.id? name = some id) :
    name ∈ scope.names ∧ id.toNat = scope.names.idxOf name + 1 := by
  obtain ⟨i, hi, rfl⟩ := Option.map_eq_some_iff.mp h
  obtain ⟨hmem, rfl⟩ := idxOf_of_idxOf? hi
  exact ⟨hmem, toNat_ofNat_succ ((List.idxOf_lt_length_iff.mpr hmem).trans_le hscope)⟩

/-- The id that a conditional gets is the number of its name in the scope behind it. -/
lemma toNat_of_idFor? {c : Conditional} (hscope : scope.Numbered)
    (h : scope.idFor? c.name = some id) : c.name ∈ (scope.after (.conditional c)).names ∧
      id.toNat = (scope.after (.conditional c)).names.idxOf c.name + 1 := by
  unfold idFor? at h
  split at h
  · rename_i hid
    cases h
    obtain ⟨hmem, hnumber⟩ := toNat_of_id? hscope hid
    rw [after, if_pos (by simpa using hmem)]
    exact ⟨hmem, hnumber⟩
  · rename_i hnone
    split at h
    · rename_i hlt
      cases h
      have hnew : c.name ∉ scope.names :=
        List.idxOf?_eq_none_iff.mp (Option.map_eq_none_iff.mp hnone)
      rw [after, if_neg (by simpa using hnew), toNat_ofNat_succ hlt]
      simp [List.idxOf_append, hnew]
    · cases h

/-- Names are only added, at the end. -/
lemma prefix_after (scope : Scope) (i : Item) : scope.names <+: (scope.after i).names := by
  cases i with
  | conditional c =>
    rw [after]
    split
    · exact List.prefix_rfl
    · exact List.prefix_append _ _
  | _ => exact List.prefix_rfl

lemma prefix_foldl_after (scope : Scope) (is : List Item) :
    scope.names <+: (is.foldl after scope).names := by
  induction is generalizing scope with
  | nil => exact List.prefix_rfl
  | cons i rest ih => exact (prefix_after scope i).trans (ih _)

/-- No name is entered twice. -/
lemma nodup_foldl_after {is : List Item} (h : scope.names.Nodup) :
    (is.foldl after scope).names.Nodup := by
  refine List.foldlRecOn (motive := fun scope => scope.names.Nodup) is after h fun scope h i _ => ?_
  cases i with
  | conditional c =>
    rw [after]
    split
    · exact h
    · rename_i hnew
      exact List.nodup_append.mpr ⟨h, List.nodup_singleton _, by grind⟩
  | _ => exact h

/-- The scope behind items knows the names that they define, in the order of first appearance. -/
theorem names_foldl_after (is : List Item) :
    (is.foldl after empty).names = (Definition.ofItems is).names := by
  induction is using List.reverseRecOn with
  | nil => rfl
  | append_singleton is i ih =>
    have hconditionals : (Definition.ofItems (is ++ [i])).conditionals =
        (Definition.ofItems is).conditionals ++ [i].filterMap Item.conditional? :=
      List.filterMap_append
    rw [List.foldl_append, List.foldl_cons, List.foldl_nil, Definition.names, hconditionals]
    cases i with
    | conditional c =>
      have hmem : c.name ∈ (is.foldl after empty).names ↔
          c.name ∈ (Definition.ofItems is).conditionals.map Conditional.name := by
        rw [ih, Definition.names, List.mem_eraseDups]
      have hlast : [Item.conditional c].filterMap Item.conditional? = [c] := rfl
      rw [hlast, List.map_append, List.map_singleton, eraseDups_concat, ← Definition.names, ← ih, after]
      simp only [List.contains_iff_mem, hmem]
      split <;> rfl
    | _ =>
      rw [List.filterMap_cons_none rfl, List.filterMap_nil, List.append_nil]
      exact ih

end Scope

namespace Accepted

variable {texts : List Bytes} {scope : Scope} {is before after : List Item} {i : Item}

/-- Items that follow others are accepted in the scope behind these. -/
lemma append_iff : Accepted texts scope (before ++ after) ↔
    Accepted texts scope before ∧ Accepted texts (before.foldl Scope.after scope) after := by
  induction before generalizing scope with
  | nil => exact ⟨fun h => ⟨.nil scope, h⟩, fun h => h.2⟩
  | cons i before ih =>
    constructor
    · rintro (_ | ⟨hi, hrest⟩)
      exact ⟨.cons hi (ih.mp hrest).1, (ih.mp hrest).2⟩
    · rintro ⟨_ | ⟨hi, hbefore⟩, hafter⟩
      exact .cons hi (ih.mpr ⟨hbefore, hafter⟩)

/-- What scopes keep from one item to the next holds behind all of them. -/
lemma scope_foldl {P : Scope → Prop} (hstep : ∀ scope i, P scope → i.Made texts scope →
    P (scope.after i)) (h : Accepted texts scope is) (hscope : P scope) :
    P (is.foldl Scope.after scope) := by
  induction h with
  | nil scope => exact hscope
  | cons hi hrest ih => exact ih (hstep _ _ hscope hi)

lemma numbered_foldl (h : Accepted texts Scope.empty is) :
    (is.foldl Scope.after Scope.empty).Numbered :=
  h.scope_foldl (fun _ _ hscope hi => Scope.numbered_after hscope hi) Scope.numbered_empty

/-- An accepted item was let through by the scope behind those before it, which had not given out more
ids than there are. -/
lemma made_of_append (h : Accepted texts Scope.empty (before ++ i :: after)) :
    (before.foldl Scope.after Scope.empty).Numbered ∧
      i.Made texts (before.foldl Scope.after Scope.empty) := by
  obtain ⟨hbefore, hrest⟩ := append_iff.mp h
  cases hrest with
  | cons hi _ => exact ⟨hbefore.numbered_foldl, hi⟩

end Accepted

namespace Definition

variable {texts : List Bytes} {is : List Item} {source : Bytes} {d : Definition}

lemma prefix_names (before after : List Item) :
    (ofItems before).names <+: (ofItems (before ++ after)).names := by
  rw [← Scope.names_foldl_after, ← Scope.names_foldl_after, List.foldl_append]
  exact Scope.prefix_foldl_after _ after

lemma mem_names {name : Bytes} : name ∈ d.names ↔ ∃ c ∈ d.conditionals, c.name = name := by
  rw [names, List.mem_eraseDups, List.mem_map]

/-- A conditional has the number of its name. -/
lemma toNat_id_of_accepted (h : Accepted texts Scope.empty is) {c : Conditional}
    (hc : c ∈ (ofItems is).conditionals) : c.id.toNat = (ofItems is).names.idxOf c.name + 1 := by
  obtain ⟨before, after, rfl⟩ := List.append_of_mem (mem_of_mem_conditionals hc)
  obtain ⟨hscope, hmade⟩ := h.made_of_append
  obtain ⟨hmem, hnumber⟩ := Scope.toNat_of_idFor? hscope (Conditional.Made.id hmade)
  have hbehind : ((before.foldl Scope.after Scope.empty).after (.conditional c)).names =
      (ofItems (before ++ [.conditional c])).names := by
    rw [← Scope.names_foldl_after, List.foldl_append]
    rfl
  have hprefix := prefix_names (before ++ [.conditional c]) after
  rw [List.append_assoc, List.singleton_append] at hprefix
  rw [hbehind] at hmem hnumber
  rw [hnumber, idxOf_of_prefix hprefix hmem]

/-- A guard that a scope knows has the id of a conditional. -/
lemma exists_conditional_of_id? {before after : List Item}
    (h : Accepted texts Scope.empty (before ++ after)) {name : Bytes} {id : UInt8}
    (hid : (before.foldl Scope.after Scope.empty).id? name = some id) :
    ∃ c ∈ (ofItems (before ++ after)).conditionals, c.id = id := by
  obtain ⟨hmem, hnumber⟩ := Scope.toNat_of_id? (Accepted.append_iff.mp h).1.numbered_foldl hid
  rw [Scope.names_foldl_after] at hmem hnumber
  obtain ⟨c, hc, rfl⟩ := mem_names.mp ((prefix_names before after).subset hmem)
  refine ⟨c, hc, UInt8.toNat_inj.mp ?_⟩
  rw [toNat_id_of_accepted h hc, hnumber, idxOf_of_prefix (prefix_names before after) hmem]

/-- A rule of an accepted block is sound. -/
lemma sound_of_made {before after : List Item} {kind : RuleKind} {r : Rule}
    (h : Accepted texts Scope.empty (before ++ after))
    (hr : r.Made texts (before.foldl Scope.after Scope.empty) kind) :
    r.Sound (ofItems (before ++ after)) kind := by
  obtain ⟨source, -, guard, hguard, hstored⟩ := hr.pattern
  obtain ⟨hcheck, hbytes, hstarts, -⟩ := StoredPattern.ofSource_ok hstored
  obtain ⟨rest, hencode, hlookahead⟩ := StoredPattern.exists_eq_encode hcheck
  simp only [SourcePattern.startsAnchor, Pattern.isClassId, Bool.and_eq_true, Bool.not_eq_true',
    Bool.and_eq_false_iff, decide_eq_false_iff_not, decide_eq_true_eq] at hstarts
  refine ⟨?_, fun hclass => ?_, guard, rest, hbytes.trans hencode, fun g hg => ?_, ?_⟩
  · have hmarks : r.group ∉ [0x40, 0x21, 0x5F, 0x29, 0x28, 0x7B] := hstarts.2
    simp only [List.mem_cons, not_or] at hmarks ⊢
    tauto
  · exact hstarts.1.elim (fun hlow => hlow hclass.1) fun hhigh => hhigh hclass.2
  · obtain ⟨name, hname⟩ := hguard g hg
    exact exists_conditional_of_id? h hname
  · rintro rfl
    exact hlookahead rfl

lemma sound_of_accepted (h : Accepted texts Scope.empty is) : ∀ kind,
    ∀ r ∈ (ofItems is).kindRules kind, r.Sound (ofItems is) kind := by
  intro kind r hr
  cases kind with
  | spelling =>
    obtain ⟨i, hi, hri⟩ := List.mem_flatMap.mp hr
    obtain ⟨before, after, rfl⟩ := List.append_of_mem hi
    cases i with
    | spellingRules rules => exact sound_of_made h (h.made_of_append.2 r hri)
    | _ => cases hri
  | letter =>
    obtain ⟨i, hi, hri⟩ := List.mem_flatMap.mp hr
    obtain ⟨before, after, rfl⟩ := List.append_of_mem hi
    cases i with
    | letterRules rules => exact sound_of_made h (h.made_of_append.2 r hri)
    | _ => cases hri

/-- The ids in use are the numbers of the names. -/
lemma exists_id_iff (hnumbered : ∀ c ∈ d.conditionals, c.id.toNat = d.names.idxOf c.name + 1)
    (hnodup : d.names.Nodup) (n : Nat) :
    (∃ c ∈ d.conditionals, c.id.toNat = n) ↔ 1 ≤ n ∧ n ≤ d.names.length := by
  constructor
  · rintro ⟨c, hc, rfl⟩
    have hlt := List.idxOf_lt_length_iff.mpr (mem_names.mpr ⟨c, hc, rfl⟩)
    rw [hnumbered c hc]
    omega
  · rintro ⟨hpos, hle⟩
    have hlt : n - 1 < d.names.length := by omega
    obtain ⟨c, hc, hname⟩ := mem_names.mp (List.getElem_mem hlt)
    refine ⟨c, hc, ?_⟩
    rw [hnumbered c hc, hname, hnodup.idxOf_getElem]
    omega

/-- A definition that a source gives is sound. -/
theorem sound_of_parse (h : parse source = .ok d) : d.Sound := by
  obtain ⟨is, rfl, haccepted⟩ := exists_items_of_parse h
  have hnumbered := fun c hc => toNat_id_of_accepted haccepted (c := c) hc
  have hnodup : (ofItems is).names.Nodup := by
    rw [← Scope.names_foldl_after]
    exact Scope.nodup_foldl_after List.nodup_nil
  have hclass : ∀ c ∈ (ofItems is).classes, ∃ scope : Scope,
      c.Made ((Source.tokens source).map Token.text) scope := fun c hc => by
    obtain ⟨before, after, rfl⟩ := List.append_of_mem (mem_of_mem_classes hc)
    exact ⟨_, haccepted.made_of_append.2⟩
  exact {
    classes := haccepted.nodup_classes List.nodup_nil
    letters := by
      intro c hc
      obtain ⟨scope, hmade⟩ := hclass c hc
      simpa [Pattern.isClassId] using hmade.letter
    members := by
      intro c hc m hm
      obtain ⟨scope, hmade⟩ := hclass c hc
      exact (hmade.members m hm).2
    count := by
      rw [← Scope.names_foldl_after]
      exact haccepted.numbered_foldl
    numbered := hnumbered
    same := by
      intro c hc c' hc'
      rw [← UInt8.toNat_inj, hnumbered c hc, hnumbered c' hc', Nat.add_right_cancel_iff,
        List.idxOf_inj (mem_names.mpr ⟨c, hc, rfl⟩)]
    ids := exists_id_iff hnumbered hnodup
    rules := sound_of_accepted haccepted }

theorem sound_of_parse_sample : parse sampleSource = .ok sampleDefinition ∧ sampleDefinition.Sound :=
  ⟨parse_sampleSource, sound_of_parse parse_sampleSource⟩

end Definition

end LetterToSound.Language
