import Mathlib
import LetterToSound.Proofs.Phoneme.SymbolText

/-!
# What X-SAMPA text is

Text is X-SAMPA when it can be split, from its start on, into blanks, stress marks, and symbols with
modifiers behind them, where a symbol or a modifier is always the longest one that there is. Every
symbol is a phoneme then, with the last stress mark before it and the modifiers behind it. Text that
cannot be split is rejected where the first part that can be ends.
-/

namespace LetterToSound.XSampa

/-! ## Taking the longest entry of a table -/

section Table

variable {α : Type} {table : List α} {text : α → String} {a c : α} {bytes behind rest : Bytes}

/-- Whether bytes start with an entry of a table, and with no longer one. -/
structure IsLongest (table : List α) (text : α → String) (bytes : Bytes) (a : α) : Prop where
  mem : a ∈ table
  starts : Bytes.ofString (text a) <+: bytes
  longest : ∀ b ∈ table, Bytes.ofString (text b) <+: bytes →
    (Bytes.ofString (text b)).length ≤ (Bytes.ofString (text a)).length

/-- What is not there cannot be longer. -/
lemma IsLongest.of_append (h : IsLongest table text (Bytes.ofString (text a) ++ (behind ++ rest)) a) :
    IsLongest table text (Bytes.ofString (text a) ++ behind) a where
  mem := h.mem
  starts := List.prefix_append _ _
  longest b hb hprefix := by
    refine h.longest b hb ?_
    rw [← List.append_assoc]
    exact hprefix.trans (List.prefix_append _ rest)

/-- The first entry of a table that bytes start with, and what follows it. -/
def first? (table : List α) (text : α → String) (bytes : Bytes) : Option (α × Bytes) :=
  (table.find? fun a => (Bytes.ofString (text a)).isPrefixOf bytes).map fun a =>
    (a, bytes.drop (Bytes.ofString (text a)).length)

lemma first?_eq_none_iff :
    first? table text bytes = none ↔ ∀ a ∈ table, ¬Bytes.ofString (text a) <+: bytes := by
  simp [first?]

/-- Where no entry stands behind one that it goes on with, the first one that fits is the longest. -/
lemma isLongest_of_find?
    (htable : table.Pairwise fun a b => ¬Bytes.ofString (text a) <+: Bytes.ofString (text b))
    (h : table.find? (fun a => (Bytes.ofString (text a)).isPrefixOf bytes) = some a) :
    IsLongest table text bytes a := by
  have hstarts : Bytes.ofString (text a) <+: bytes := by simpa using List.find?_some h
  refine ⟨List.mem_of_find?_eq_some h, hstarts, fun b hb hprefix => ?_⟩
  by_contra hlonger
  obtain ⟨-, before, after, rfl, hbefore⟩ := List.find?_eq_some_iff_append.mp h
  rcases List.mem_append.mp hb with hb | hb
  · have hmissed := hbefore b hb
    simp [List.isPrefixOf_iff_prefix.mpr hprefix] at hmissed
  rcases List.mem_cons.mp hb with rfl | hb
  · exact hlonger (Nat.le_refl _)
  · obtain ⟨hahead, -⟩ := List.pairwise_cons.mp (List.pairwise_append.mp htable).2.1
    exact hahead b hb (List.prefix_of_prefix_length_le hstarts hprefix (by omega))

/-- There is only one longest entry. -/
lemma IsLongest.unique
    (htable : table.Pairwise fun a b => ¬Bytes.ofString (text a) <+: Bytes.ofString (text b))
    (ha : IsLongest table text bytes a) (hc : IsLongest table text bytes c) : a = c := by
  have hlength := Nat.le_antisymm (hc.longest a ha.mem ha.starts) (ha.longest c hc.mem hc.starts)
  have hsame : Bytes.ofString (text a) = Bytes.ofString (text c) :=
    (List.prefix_of_prefix_length_le ha.starts hc.starts hlength.le).eq_of_length hlength
  have hsymm : Std.Symm fun a b => Bytes.ofString (text a) ≠ Bytes.ofString (text b) :=
    ⟨fun _ _ h => h.symm⟩
  have hapart : table.Pairwise fun a b => Bytes.ofString (text a) ≠ Bytes.ofString (text b) :=
    htable.imp fun h heq => h (by rw [heq])
  by_contra hne
  exact hapart.forall ha.mem hc.mem hne hsame

lemma first?_eq_some_iff
    (htable : table.Pairwise fun a b => ¬Bytes.ofString (text a) <+: Bytes.ofString (text b)) :
    first? table text bytes = some (a, behind) ↔
      bytes = Bytes.ofString (text a) ++ behind ∧ IsLongest table text bytes a := by
  rw [first?, Option.map_eq_some_iff]
  constructor
  · rintro ⟨_, hfind, heq⟩
    cases heq
    have hlongest := isLongest_of_find? htable hfind
    obtain ⟨tail, rfl⟩ := hlongest.starts
    exact ⟨by rw [List.drop_left], hlongest⟩
  · rintro ⟨rfl, hlongest⟩
    have hsome : (table.find? fun b =>
        (Bytes.ofString (text b)).isPrefixOf (Bytes.ofString (text a) ++ behind)).isSome := by
      rw [List.find?_isSome]
      exact ⟨a, hlongest.mem, by simp⟩
    obtain ⟨c, hc⟩ := Option.isSome_iff_exists.mp hsome
    obtain rfl := hlongest.unique htable (isLongest_of_find? htable hc)
    exact ⟨a, hc, by rw [List.drop_left]⟩

end Table

/-- Every modifier, a longer one before the one it starts with. -/
def Modifier.all : List Modifier := [.aspirated, .halfLong, .long]

lemma pairwise_modifiers : Modifier.all.Pairwise fun m n =>
    ¬Bytes.ofString m.text <+: Bytes.ofString n.text := by
  decide +kernel

lemma modifier?_eq (bytes : Bytes) : modifier? bytes = first? Modifier.all Modifier.text bytes := by
  have haspirated : Bytes.ofString Modifier.aspirated.text = [0x5F, 0x68] := by decide +kernel
  have hhalfLong : Bytes.ofString Modifier.halfLong.text = [0x3A, 0x5C] := by decide +kernel
  have hlong : Bytes.ofString Modifier.long.text = [0x3A] := by decide +kernel
  rw [first?, Modifier.all]
  unfold modifier?
  split
  · simp [haspirated]
  · simp [haspirated, hhalfLong]
  · rename_i rest hlonger
    have hno : [0x5C].isPrefixOf rest = false := by
      rw [← Bool.not_eq_true, List.isPrefixOf_iff_prefix]
      rintro ⟨tail, rfl⟩
      exact hlonger tail rfl
    simp [haspirated, hhalfLong, hlong, hno]
  · rename_i hno hno' hno''
    symm
    rw [← first?, ← Modifier.all, first?_eq_none_iff]
    intro m _
    cases m with
    | aspirated =>
      rw [haspirated]
      rintro ⟨rest, rfl⟩
      exact hno rest rfl
    | halfLong =>
      rw [hhalfLong]
      rintro ⟨rest, rfl⟩
      exact hno' rest rfl
    | long =>
      rw [hlong]
      rintro ⟨rest, rfl⟩
      exact hno'' rest rfl

/-- The longest symbol is taken. -/
lemma symbol?_eq_some_iff {s : Symbol} {bytes behind : Bytes} : symbol? bytes = some (s, behind) ↔
    bytes = Bytes.ofString s.text ++ behind ∧ IsLongest symbols Symbol.text bytes s :=
  first?_eq_some_iff pairwise_symbols

/-- The longest modifier is taken. -/
lemma modifier?_eq_some_iff {m : Modifier} {bytes behind : Bytes} :
    modifier? bytes = some (m, behind) ↔
      bytes = Bytes.ofString m.text ++ behind ∧ IsLongest Modifier.all Modifier.text bytes m := by
  rw [modifier?_eq]
  exact first?_eq_some_iff pairwise_modifiers

/-! ## The grammar -/

/-- What may stand between symbols. -/
inductive Mark where
  | space | tab | primary | secondary
deriving DecidableEq

namespace Mark

def byte : Mark → UInt8
  | space => 0x20
  | tab => 0x09
  | primary => 0x22
  | secondary => 0x25

/-- The stress that a mark stands for; a blank is none. -/
def stress? : Mark → Option Feature
  | primary => some Feature.primaryStress
  | secondary => some Feature.secondaryStress
  | _ => none

end Mark

/-- A symbol with the marks before it and the modifiers behind it. -/
structure Sound where
  before : List Mark
  symbol : Symbol
  modifiers : List Modifier

/-- Whether bytes are modifiers and then a rest, where each modifier is the longest one. -/
inductive Modifies : Bytes → List Modifier → Bytes → Prop
  | none (rest : Bytes) : Modifies rest [] rest
  | some {m : Modifier} {ms : List Modifier} {behind rest : Bytes}
      (longest : IsLongest Modifier.all Modifier.text (Bytes.ofString m.text ++ behind) m)
      (more : Modifies behind ms rest) : Modifies (Bytes.ofString m.text ++ behind) (m :: ms) rest

/-- Whether a text is these sounds and then these marks, where each symbol and each modifier is the
longest one. -/
inductive Splits : Bytes → List Sound → List Mark → Prop
  | last (marks : List Mark) : Splits (marks.map Mark.byte) [] marks
  | sound {before marks : List Mark} {s : Symbol} {ms : List Modifier} {behind rest : Bytes}
      {sounds : List Sound}
      (longest : IsLongest symbols Symbol.text (Bytes.ofString s.text ++ behind) s)
      (modified : Modifies behind ms rest) (more : Splits rest sounds marks) :
      Splits (before.map Mark.byte ++ (Bytes.ofString s.text ++ behind)) (⟨before, s, ms⟩ :: sounds)
        marks

/-! ## What a sound says -/

/-- The value of the last feature of a family; zero without one. -/
def lastOf (family : Family) (fs : List Feature) : UInt64 :=
  ((fs.filter (·.family = family)).getLast?.map Feature.value).getD 0

lemma lastOf_concat (family : Family) (fs : List Feature) (f : Feature) :
    lastOf family (fs ++ [f]) = if f.family = family then f.value else lastOf family fs := by
  rw [lastOf, List.filter_append]
  split
  · rename_i h
    simp [h]
  · rename_i h
    simp [h, lastOf]

lemma lastOf_and_mask {family : Family} {fs : List Feature} (h : ∀ f ∈ fs, f ∈ Feature.table) :
    lastOf family fs &&& family.mask = lastOf family fs := by
  induction fs using List.reverseRecOn with
  | nil => exact UInt64.zero_and
  | append_singleton fs f ih =>
    obtain ⟨hfs, hf⟩ := List.forall_mem_append.mp h
    rw [lastOf_concat]
    split
    · rename_i hfamily
      rw [← hfamily, Feature.value_and_mask (hf f (List.mem_singleton_self f))]
    · exact ih hfs

/-- The stress that marks give to the next symbol. -/
def stressOf (marks : List Mark) : UInt64 := lastOf .stress (marks.filterMap Mark.stress?)

lemma mem_table_of_stress? {mark : Mark} {f : Feature} (h : mark.stress? = some f) :
    f ∈ Feature.table ∧ f.family = .stress := by
  cases mark <;> cases h <;> decide

lemma stressOf_concat_none (marks : List Mark) {mark : Mark} (h : mark.stress? = none) :
    stressOf (marks ++ [mark]) = stressOf marks := by
  simp [stressOf, h]

lemma stressOf_concat_some (marks : List Mark) {mark : Mark} {f : Feature} (h : mark.stress? = some f) :
    stressOf (marks ++ [mark]) = f.value := by
  simp [stressOf, h, lastOf_concat, (mem_table_of_stress? h).2]

lemma stressOf_and_mask (marks : List Mark) :
    stressOf marks &&& Family.stress.mask = stressOf marks := by
  refine lastOf_and_mask fun f hf => ?_
  obtain ⟨mark, -, hmark⟩ := List.mem_filterMap.mp hf
  exact (mem_table_of_stress? hmark).1

lemma Modifier.mem_table (m : Modifier) : m.feature ∈ Feature.table := by cases m <;> decide

lemma lastOf_aspiration (ms : List Modifier) : lastOf .aspiration (ms.map Modifier.feature) =
    if Modifier.aspirated ∈ ms then Feature.aspirated.value else 0 := by
  induction ms using List.reverseRecOn with
  | nil => rfl
  | append_singleton ms m ih =>
    rw [List.map_append, List.map_singleton, lastOf_concat, ih]
    cases m <;> simp [Modifier.feature, Feature.aspirated, Feature.halfLong, Feature.long]

/-- Modifiers leave the last feature that they put into a family, and the families as they are that they
put none into. -/
lemma get_foldl_apply (p : Phoneme) (ms : List Modifier) (family : Family) :
    (ms.foldl (fun p m => m.apply p) p).get family.mask =
      (((ms.map Modifier.feature).filter (·.family = family)).getLast?.map Feature.value).getD
        (p.get family.mask) := by
  induction ms using List.reverseRecOn with
  | nil => rfl
  | append_singleton ms m ih =>
    rw [List.foldl_append, List.foldl_cons, List.foldl_nil, Modifier.apply, List.map_append,
      List.filter_append]
    by_cases hfamily : m.feature.family = family
    · subst hfamily
      simp [Phoneme.get_set, Feature.value_and_mask m.mem_table]
    · rw [Phoneme.get_set_of_disjoint _ _ (Family.mask_and_mask hfamily), ih]
      simp [hfamily]

lemma get_not_markMask_foldl_apply (p : Phoneme) (ms : List Modifier) :
    (ms.foldl (fun p m => m.apply p) p).get (~~~markMask) = p.get (~~~markMask) := by
  induction ms generalizing p with
  | nil => rfl
  | cons m ms ih =>
    have hmark : m.feature.family ∈ marks := by cases m <;> decide
    rw [List.foldl_cons, ih, Modifier.apply,
      Phoneme.get_set_of_disjoint _ _ (mask_and_not_markMask hmark)]

lemma bits_and_not_markMask {s : Symbol} (hs : s ∈ symbols) : s.bits &&& ~~~markMask = s.bits := by
  revert s
  decide +kernel

namespace Sound

/-- The phoneme that a sound is read as. -/
def phoneme (sound : Sound) : Phoneme :=
  sound.modifiers.foldl (fun p m => m.apply p)
    (Phoneme.set ⟨sound.symbol.bits⟩ (stressOf sound.before) Family.stress.mask)

/-- Whether a phoneme is what a sound says: the features of the symbol, the last stress before it,
aspiration where a modifier says so, and the last length behind it. -/
structure Gives (sound : Sound) (p : Phoneme) : Prop where
  symbol : p.get (~~~markMask) = sound.symbol.bits
  stress : p.get Family.stress.mask = stressOf sound.before
  aspiration : p.get Family.aspiration.mask =
    if Modifier.aspirated ∈ sound.modifiers then Feature.aspirated.value else 0
  length : p.get Family.length.mask = lastOf .length (sound.modifiers.map Modifier.feature)

variable {sound : Sound} {p q : Phoneme}

/-- A symbol says nothing about a mark other than the stress. -/
lemma get_phoneme (hs : sound.symbol ∈ symbols) {family : Family} (hfamily : family ∈ marks)
    (hne : family ≠ .stress) :
    sound.phoneme.get family.mask = lastOf family (sound.modifiers.map Modifier.feature) := by
  have hnone : (Phoneme.set ⟨sound.symbol.bits⟩ (stressOf sound.before) Family.stress.mask).get
      family.mask = 0 := by
    rw [Phoneme.get_set_of_disjoint _ _ (Family.mask_and_mask (Ne.symm hne))]
    exact bits_and_mark hs hfamily
  rw [phoneme, get_foldl_apply, hnone, lastOf]

lemma gives_phoneme (hs : sound.symbol ∈ symbols) : sound.Gives sound.phoneme where
  symbol := by
    rw [phoneme, get_not_markMask_foldl_apply,
      Phoneme.get_set_of_disjoint _ _ (mask_and_not_markMask (by decide))]
    exact bits_and_not_markMask hs
  stress := by
    have hnone : (sound.modifiers.map Modifier.feature).filter (·.family = .stress) = [] := by
      refine List.filter_eq_nil_iff.mpr (List.forall_mem_map.mpr fun m _ => ?_)
      cases m <;> decide
    rw [phoneme, get_foldl_apply, hnone, Phoneme.get_set, stressOf_and_mask]
    rfl
  aspiration := by rw [get_phoneme hs (by decide) (by decide), lastOf_aspiration]
  length := get_phoneme hs (by decide) (by decide)

lemma Gives.unique (hp : sound.Gives p) (hq : sound.Gives q) : p = q := by
  refine Phoneme.ext_of_mask markMask ?_ (hp.symbol.trans hq.symbol.symm)
  rw [markMask, Phoneme.get_or, Phoneme.get_or, Phoneme.get_or, Phoneme.get_or, hp.stress, hq.stress,
    hp.aspiration, hq.aspiration, hp.length, hq.length]

end Sound

/-! ## What is read can be split -/

section Reading

variable {size : Nat} {read : List Phoneme} {bytes good bad rest text : Bytes} {ms : List Modifier}
  {sounds : List Sound} {before last : List Mark} {b : UInt8}

/-- A byte is a blank or a stress mark just if it is one of the marks, and these say what it does. -/
lemma exists_mark_of_blank (h : Explicit.isBlank b = true) :
    ∃ mark : Mark, mark.byte = b ∧ mark.stress? = none := by
  simp only [Explicit.isBlank, Bool.or_eq_true, beq_iff_eq] at h
  rcases h with rfl | rfl
  · exact ⟨.space, rfl, rfl⟩
  · exact ⟨.tab, rfl, rfl⟩

lemma exists_mark_of_stress {value : UInt64} (h : stress? b = some value) :
    ∃ (mark : Mark) (f : Feature), mark.byte = b ∧ mark.stress? = some f ∧ f.value = value := by
  unfold stress? at h
  split_ifs at h with hprimary hsecondary
  · cases h
    exact ⟨.primary, _, hprimary.symm, rfl, rfl⟩
  · cases h
    exact ⟨.secondary, _, hsecondary.symm, rfl, rfl⟩

lemma exists_modifies (p : Phoneme) (bytes : Bytes) : ∃ ms,
    Modifies bytes ms (modify p bytes).2 ∧
      (modify p bytes).1 = ms.foldl (fun p m => m.apply p) p := by
  fun_induction modify p bytes with
  | case1 p bytes hnone => exact ⟨[], .none bytes, rfl⟩
  | case2 p bytes m rest hm ih =>
    obtain ⟨ms, hms, hp⟩ := ih
    obtain ⟨rfl, hlongest⟩ := modifier?_eq_some_iff.mp hm
    exact ⟨m :: ms, .some hlongest hms, hp⟩

/-- Modifiers are those of a text that ends earlier too. -/
lemma Modifies.cut (h : Modifies bytes ms (good ++ bad)) :
    ∃ front, bytes = front ++ bad ∧ Modifies front ms good := by
  generalize hrest : good ++ bad = rest at h
  induction h with
  | none rest => exact ⟨good, hrest.symm, .none good⟩
  | some hlongest _ ih =>
    obtain ⟨front, rfl, hmodifies⟩ := ih hrest
    exact ⟨_, (List.append_assoc ..).symm, .some hlongest.of_append hmodifies⟩

/-- Whether there is something, but no blank, no stress mark and no symbol first. -/
structure Blocked (bytes : Bytes) : Prop where
  ne_nil : bytes ≠ []
  no_mark : ∀ mark : Mark, ¬[mark.byte] <+: bytes
  no_symbol : ∀ s ∈ symbols, ¬Bytes.ofString s.text <+: bytes

lemma blocked_of_symbol?_eq_none (hblank : ¬Explicit.isBlank b = true) (hstress : stress? b = none)
    (hsymbol : symbol? (b :: rest) = none) : Blocked (b :: rest) where
  ne_nil := List.cons_ne_nil b rest
  no_mark mark hprefix := by
    obtain rfl : mark.byte = b := by simpa using hprefix
    cases mark with
    | space => exact hblank (by decide)
    | tab => exact hblank (by decide)
    | primary => exact absurd hstress (by decide)
    | secondary => exact absurd hstress (by decide)
  no_symbol := first?_eq_none_iff.mp hsymbol

/-- What becomes of bytes behind some marks: the part that can be read is split into sounds, and either
that is all, or what is behind it cannot be read. -/
lemma parseRest_cases (size : Nat) (read : List Phoneme) (before : List Mark) (bytes : Bytes) :
    ∃ good bad sounds last, bytes = good ++ bad ∧
      Splits (before.map Mark.byte ++ good) sounds last ∧
      (bad = [] ∧ parseRest size (stressOf before) read bytes =
          .ok (read.reverse ++ sounds.map Sound.phoneme) ∨
        Blocked bad ∧ parseRest size (stressOf before) read bytes =
          .error (.unknownSymbol (size - bad.length))) := by
  generalize hstress : stressOf before = stress
  fun_induction parseRest size stress read bytes generalizing before with
  | case1 stress read =>
    exact ⟨[], [], [], before, rfl, by simpa using .last before, .inl ⟨rfl, by simp⟩⟩
  | case2 stress read b rest hblank ih =>
    obtain ⟨mark, rfl, hnone⟩ := exists_mark_of_blank hblank
    obtain ⟨good, bad, sounds, last, rfl, hsplits, hread⟩ :=
      ih (before ++ [mark]) ((stressOf_concat_none before hnone).trans hstress)
    exact ⟨mark.byte :: good, bad, sounds, last, rfl, by simpa using hsplits, hread⟩
  | case3 stress read b rest hblank value hvalue ih =>
    obtain ⟨mark, f, rfl, hmark, rfl⟩ := exists_mark_of_stress hvalue
    obtain ⟨good, bad, sounds, last, rfl, hsplits, hread⟩ :=
      ih (before ++ [mark]) (stressOf_concat_some before hmark)
    exact ⟨mark.byte :: good, bad, sounds, last, rfl, by simpa using hsplits, hread⟩
  | case4 stress read b rest hblank hnone hsymbol =>
    exact ⟨[], b :: rest, [], before, rfl, by simpa using .last before,
      .inr ⟨blocked_of_symbol?_eq_none hblank hnone hsymbol, rfl⟩⟩
  | case5 stress read b rest hblank hnone s behind hs modified ih =>
    obtain ⟨good, bad, sounds, last, hrest, hsplits, hread⟩ := ih [] rfl
    obtain ⟨ms, hmodifies, hp⟩ :=
      exists_modifies (Phoneme.set ⟨s.bits⟩ stress Family.stress.mask) behind
    obtain ⟨hbytes, hlongest⟩ := symbol?_eq_some_iff.mp hs
    rw [show (modify _ behind).2 = good ++ bad from hrest] at hmodifies
    obtain ⟨front, rfl, hfront⟩ := hmodifies.cut
    rw [hbytes] at hlongest
    have hphoneme : modified.1 = Sound.phoneme ⟨before, s, ms⟩ := by
      rw [Sound.phoneme, hstress]
      exact hp
    refine ⟨Bytes.ofString s.text ++ front, bad, ⟨before, s, ms⟩ :: sounds, last, ?_,
      .sound hlongest.of_append hfront hsplits, ?_⟩
    · rw [hbytes, List.append_assoc]
    · rw [hphoneme] at hread ⊢
      simpa using hread

/-! ## What can be split is read -/

lemma parseRest_mark (mark : Mark) (before : List Mark) (rest : Bytes) :
    parseRest size (stressOf before) read (mark.byte :: rest) =
      parseRest size (stressOf (before ++ [mark])) read rest := by
  rw [parseRest]
  cases mark with
  | space => rw [stressOf_concat_none before rfl]; rfl
  | tab => rw [stressOf_concat_none before rfl]; rfl
  | primary => rw [stressOf_concat_some before rfl]; rfl
  | secondary => rw [stressOf_concat_some before rfl]; rfl

lemma parseRest_marks (marks before : List Mark) (rest : Bytes) :
    parseRest size (stressOf before) read (marks.map Mark.byte ++ rest) =
      parseRest size (stressOf (before ++ marks)) read rest := by
  induction marks generalizing before with
  | nil => rw [List.append_nil]; rfl
  | cons mark marks ih =>
    rw [List.map_cons, List.cons_append, parseRest_mark, ih, List.append_assoc, List.singleton_append]

/-- Where a symbol is the longest one it is read, with all modifiers behind it. -/
lemma parseRest_symbol {s : Symbol} {behind : Bytes} (stress : UInt64)
    (hlongest : IsLongest symbols Symbol.text (Bytes.ofString s.text ++ behind) s) :
    parseRest size stress read (Bytes.ofString s.text ++ behind) =
      parseRest size 0
        ((modify (Phoneme.set ⟨s.bits⟩ stress Family.stress.mask) behind).1 :: read)
        (modify (Phoneme.set ⟨s.bits⟩ stress Family.stress.mask) behind).2 := by
  have hfound := symbol?_eq_some_iff.mpr ⟨rfl, hlongest⟩
  obtain ⟨b, tail, hbytes, -, -, hblank, hstress⟩ := exists_first hlongest.mem
  rw [hbytes, List.cons_append] at hfound ⊢
  rw [parseRest, if_neg (by simp [hblank]), hstress]
  dsimp only
  split
  · rename_i heq
    rw [hfound] at heq
    cases heq
  · rename_i heq
    rw [hfound] at heq
    cases heq
    rfl

lemma modify_of_modifies (p : Phoneme) (h : Modifies bytes ms rest) (hrest : Clear rest) :
    modify p bytes = (ms.foldl (fun p m => m.apply p) p, rest) := by
  induction h generalizing p with
  | none rest => exact modify_clear hrest p
  | some hlongest _ ih =>
    rw [modify_of_some (modifier?_eq_some_iff.mpr ⟨rfl, hlongest⟩), ih _ hrest]
    rfl

/-- No modifier stands where a symbol, a mark or nothing is due. -/
lemma Splits.clear (h : Splits text sounds last) : Clear text := by
  have hmarks (mark : Mark) (tail : Bytes) : Clear (mark.byte :: tail) := by
    intro b hb
    cases hb
    cases mark <;> decide
  cases h with
  | last =>
    cases last with
    | nil => exact fun b hb => by cases hb
    | cons mark last => exact hmarks mark _
  | @sound before _ s _ behind _ _ hlongest _ _ =>
    cases before with
    | cons mark before => exact hmarks mark _
    | nil =>
      obtain ⟨b, tail, hbytes, hmark, hback, -⟩ := exists_first hlongest.mem
      rw [List.map_nil, List.nil_append, hbytes]
      intro c hc
      cases hc
      exact ⟨fun heq => hmark (by rw [heq]; decide), fun heq => hmark (by rw [heq]; decide), hback⟩

lemma parseRest_of_splits (h : Splits text sounds last) (size : Nat) (read : List Phoneme) :
    parseRest size 0 read text = .ok (read.reverse ++ sounds.map Sound.phoneme) := by
  induction h generalizing read with
  | last marks =>
    have hmarks : parseRest size (stressOf []) read (marks.map Mark.byte ++ []) =
        parseRest size (stressOf ([] ++ marks)) read [] := parseRest_marks marks [] []
    rw [List.append_nil] at hmarks
    refine hmarks.trans ?_
    rw [parseRest, List.map_nil, List.append_nil]
  | @sound before _ s ms behind rest sounds hlongest hmodified hmore ih =>
    refine (parseRest_marks before [] _).trans ?_
    rw [List.nil_append, parseRest_symbol _ hlongest, modify_of_modifies _ hmodified hmore.clear, ih]
    simp [Sound.phoneme]

end Reading

lemma Splits.mem_symbols {text : Bytes} {sounds : List Sound} {last : List Mark}
    (h : Splits text sounds last) : ∀ sound ∈ sounds, sound.symbol ∈ symbols := by
  induction h with
  | last => exact List.forall_mem_nil _
  | sound hlongest _ _ ih => exact List.forall_mem_cons.mpr ⟨hlongest.mem, ih⟩

/-- What sounds of the table say are the phonemes that they are read as, and no others. -/
lemma forall₂_gives_iff {sounds : List Sound} (hsounds : ∀ sound ∈ sounds, sound.symbol ∈ symbols)
    {ps : List Phoneme} : List.Forall₂ Sound.Gives sounds ps ↔ ps = sounds.map Sound.phoneme := by
  induction sounds generalizing ps with
  | nil => simp
  | cons sound sounds ih =>
    obtain ⟨hsound, hsounds⟩ := List.forall_mem_cons.mp hsounds
    have hgives := Sound.gives_phoneme hsound
    cases ps with
    | nil => simp
    | cons p ps =>
      rw [List.forall₂_cons, ih hsounds, List.map_cons, List.cons.injEq]
      exact and_congr_left fun _ => ⟨fun h => h.unique hgives, fun h => h ▸ hgives⟩

/-- Text is read just if it splits into blanks, stress marks, and symbols with modifiers, each the
longest that there is. It is one phoneme for each symbol then, with its features, the last stress before
it, aspiration if a modifier behind it says so, and the last length behind it. Other text is rejected at
a byte up to which it is read, and where it goes on with no blank, no stress mark and no symbol. -/
theorem parse_iff_splits (text : Bytes) :
    (∀ ps, parse text = .ok ps ↔
      ∃ sounds last, Splits text sounds last ∧ List.Forall₂ Sound.Gives sounds ps) ∧
    ∀ e, parse text = .error e → ∃ p < text.length, e = .unknownSymbol p ∧
      (∃ ps, parse (text.take p) = .ok ps) ∧
      (∀ mark : Mark, ¬[mark.byte] <+: text.drop p) ∧
      ∀ s ∈ symbols, ¬Bytes.ofString s.text <+: text.drop p := by
  obtain ⟨good, bad, sounds, last, rfl, hsplits, hread⟩ := parseRest_cases text.length [] [] text
  change Splits good sounds last at hsplits
  have hgood (size : Nat) := parseRest_of_splits hsplits size []
  refine ⟨fun ps => ⟨fun h => ?_, ?_⟩, fun e h => ?_⟩
  · rcases hread with ⟨rfl, hok⟩ | ⟨-, herror⟩
    · obtain rfl := Except.ok.inj (hok.symm.trans h)
      exact ⟨sounds, last, by simpa using hsplits, (forall₂_gives_iff hsplits.mem_symbols).mpr rfl⟩
    · cases herror.symm.trans h
  · rintro ⟨sounds, last, hsplits, hgives⟩
    rw [(forall₂_gives_iff hsplits.mem_symbols).mp hgives]
    exact parseRest_of_splits hsplits _ []
  · rcases hread with ⟨-, hok⟩ | ⟨hblocked, herror⟩
    · cases hok.symm.trans h
    · obtain rfl := Except.error.inj (herror.symm.trans h)
      have hpos : 0 < bad.length := List.length_pos_iff.mpr hblocked.ne_nil
      refine ⟨good.length, by rw [List.length_append]; omega, ?_, ?_, ?_⟩
      · rw [List.length_append, Nat.add_sub_cancel]
      · rw [List.take_left]
        exact ⟨_, hgood good.length⟩
      · rw [List.drop_left]
        exact ⟨hblocked.no_mark, hblocked.no_symbol⟩

/-- Two marks in front of a symbol, modifiers behind one, and a byte with which nothing starts. -/
theorem parse_iff_splits_stressed :
    (∃ sounds last, Splits (Bytes.ofString "%\"tS_h: a") sounds last ∧
        List.Forall₂ Sound.Gives sounds [⟨0xD008511⟩, ⟨0x570002⟩]) ∧
      parse (Bytes.ofString "ta!") = .error (.unknownSymbol 2) ∧
      ∃ ps, parse ((Bytes.ofString "ta!").take 2) = .ok ps := by
  have hread : parse (Bytes.ofString "%\"tS_h: a") = .ok [⟨0xD008511⟩, ⟨0x570002⟩] := by
    decide +kernel
  have hrejected : parse (Bytes.ofString "ta!") = .error (.unknownSymbol 2) := by decide +kernel
  refine ⟨((parse_iff_splits _).1 _).mp hread, hrejected, ?_⟩
  obtain ⟨p, -, herror, hbefore, -⟩ := (parse_iff_splits _).2 _ hrejected
  cases herror
  exact hbefore

end LetterToSound.XSampa
