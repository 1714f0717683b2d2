import LetterToSound.Language.Definition
import LetterToSound.Source.Reading

/-!
# Dictionary blocks

A dictionary block lists words, each with a transcription between slashes. A word with other words
between quotes is to be read as those; a database cannot say that, so such an entry is left out.
-/

namespace LetterToSound.Language

open Source (endWord)

/-- How the entries of a dictionary block are written. -/
inductive DictionaryFormat where
  | cainteoir
deriving DecidableEq, Repr

namespace DictionaryFormat

def name : DictionaryFormat → String
  | cainteoir => "cainteoir"

def named? (b : Bytes) : Option DictionaryFormat :=
  if b = Bytes.ofString cainteoir.name then some cainteoir else none

end DictionaryFormat

/-- Reads entries up to the end of the block, those read before in reverse order. The result is all
entries, and the tokens behind the block or what stopped the reading; `check` may stop it too. -/
def readEntries (finish : Token) (check : Entry → Except CompileError Unit) (done : List Entry) :
    List Token → List Entry × Except CompileError (List Token)
  | [] => (done.reverse, .error ⟨.missingEnd .dictionary, finish.position⟩)
  | [word] =>
    if word.kind ≠ .text then (done.reverse, .error ⟨.unexpected word, word.position⟩)
    else if word.text = endWord then (done.reverse, .ok [])
    else (done.reverse, .error ⟨.unexpected finish, finish.position⟩)
  | word :: value :: rest =>
    if word.kind ≠ .text then (done.reverse, .error ⟨.unexpected word, word.position⟩)
    else if word.text = endWord then (done.reverse, .ok (value :: rest))
    else if value.kind = .quoted then readEntries finish check done rest
    else if value.kind = .phonemes then
      let entry : Entry := ⟨word.text, value.text⟩
      match check entry with
      | .error e => (done.reverse, .error e)
      | .ok () => readEntries finish check (entry :: done) rest
    else (done.reverse, .error ⟨.unexpected value, value.position⟩)

theorem length_readEntries_le {finish : Token} {check : Entry → Except CompileError Unit}
    {done entries : List Entry} {tokens rest : List Token}
    (h : readEntries finish check done tokens = (entries, .ok rest)) :
    rest.length ≤ tokens.length := by
  fun_induction readEntries finish check done tokens with
  | case7 done word value tokens hkind hend hquoted ih =>
    have := ih h
    simp only [List.length_cons]
    omega
  | case9 done word value tokens hkind hend hquoted hphonemes entry hcheck ih =>
    have := ih h
    simp only [List.length_cons]
    omega
  | _ => simp at h; try (obtain ⟨_, rfl⟩ := h; simp)

end LetterToSound.Language
