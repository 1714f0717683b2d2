import LetterToSound.Container.Plan
import LetterToSound.Language.Definition

/-!
# The sections of a language database

A language database holds a header, the conditionals, a section for each class, a section for each
group of spelling rules and of letter rules, and the dictionary. Sections without entries are left
out.
-/

namespace LetterToSound.Language

/-- The rules of each group that has any, groups in ascending order. Rules of a group keep their
order. -/
def groups (rules : List Rule) : List (UInt8 × List Rule) :=
  (List.range 256).filterMap fun n =>
    let group := UInt8.ofNat n
    match rules.filter (·.group = group) with
    | [] => none
    | members => some (group, members)

namespace Image

def header (locale alphabet : Bytes) : SectionPlan :=
  ⟨Layout.languageMagic, Layout.sectionSize Layout.languageHeaderSize 0 0, true,
    [.u16 Layout.byteOrderWitness, .pooled locale, .pooled alphabet], none⟩

def conditional (c : Conditional) : List Datum :=
  [.u8 c.id, .u8 c.polarity.byte, .u8 Layout.localePredicate, .pooled c.locale]

def conditionals (cs : List Conditional) : List SectionPlan :=
  if cs.isEmpty then []
  else
    [.counted .conditionals (Layout.sectionSize Layout.headerSize cs.length Layout.conditionalSize)
      true cs.length (cs.flatMap conditional)]

/-- A class ends with a zero offset, which is counted. -/
def letterClass (c : LetterClass) : SectionPlan :=
  let count := c.members.length + 1
  .counted .classDef (Layout.sectionSize Layout.groupHeaderSize count Layout.classMemberSize) true
    count (.u8 c.id :: (c.members.map Datum.pooled ++ [.u32 0]))

def rule (r : Rule) : List Datum := [.pooled r.pattern, .pooled r.replacement]

/-- A group of rules ends with an empty pattern and an empty replacement, which are counted. -/
def ruleGroup (tag : SectionTag) (group : UInt8) (rules : List Rule) : SectionPlan :=
  let count := rules.length + 1
  .counted tag (Layout.sectionSize Layout.groupHeaderSize count Layout.ruleSize) true count
    (.u8 group :: (rules.flatMap rule ++ [.pooled [], .pooled []]))

def ruleGroups (tag : SectionTag) (rules : List Rule) : List SectionPlan :=
  (groups rules).map fun (group, rules) => ruleGroup tag group rules

def entry (e : Entry) : List Datum := [.pooled e.word, .pooled e.phonemes]

def dictionary (entries : List Entry) : List SectionPlan :=
  if entries.isEmpty then []
  else
    [.counted .dictionary
      (Layout.sectionSize Layout.headerSize entries.length Layout.dictionaryEntrySize) true
      entries.length (entries.flatMap entry)]

end Image

namespace Definition

/-- The sections of the database of a definition. -/
def image (d : Definition) : List SectionPlan :=
  Image.header d.locale d.alphabet ::
    (Image.conditionals d.conditionals ++ d.classes.map Image.letterClass ++
      Image.ruleGroups .spelling d.spellingRules ++
      Image.ruleGroups .letterToPhoneme d.letterRules ++ Image.dictionary d.dictionary)

end Definition

end LetterToSound.Language
