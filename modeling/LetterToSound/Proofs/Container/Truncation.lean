import Mathlib
import LetterToSound.Outcome
import LetterToSound.Proofs.Container.Passage

/-!
# Reading a beginning of the data

What has been found in a beginning of the data stands at the same offset in all of the data. So a step
of reading that succeeds on the beginning gives the same value and stops at the same place when the rest
is there as well, and a walk through the sections of the beginning passes the first of the sections that
the whole data has.
-/

namespace LetterToSound

namespace Cursor

variable {head data : Array UInt8} {offset m n : Nat} {s : Bytes}

lemma HoldsWord.of_beginning (h : HoldsWord head offset n) (hfront : head.toList <+: data.toList) :
    HoldsWord data offset n :=
  ⟨h.1, h.2.trans (hfront.drop offset)⟩

lemma HoldsString.of_beginning (h : HoldsString head offset s) (hfront : head.toList <+: data.toList) :
    HoldsString data offset s :=
  ⟨h.1, h.2.trans (hfront.drop offset)⟩

lemma HoldsPair.of_beginning {p : Bytes × Bytes} (h : HoldsPair head offset p)
    (hfront : head.toList <+: data.toList) : HoldsPair data offset p := by
  obtain ⟨⟨first, hfirst, hfirst'⟩, second, hsecond, hsecond'⟩ := h
  exact ⟨⟨first, hfirst.of_beginning hfront, hfirst'.of_beginning hfront⟩,
    second, hsecond.of_beginning hfront, hsecond'.of_beginning hfront⟩

/-- One word stands at an offset. -/
lemma HoldsWord.unique (h : HoldsWord data offset m) (h' : HoldsWord data offset n) : m = n :=
  Option.some.inj ((word?_eq_some_iff.mpr h).symm.trans (word?_eq_some_iff.mpr h'))

end Cursor

namespace Read

open Cursor

variable {α β : Type}

/-- A step that, when it succeeds, does so in the same way if there is more data behind. -/
def Extends (x : Read α) : Prop :=
  ∀ (data : Array UInt8) (c : Cursor) (a : α) (c' : Cursor), c.data.toList <+: data.toList →
    x c = (.ok a, c') → c'.data = c.data ∧ x { c with data } = (.ok a, { c' with data })

namespace Extends

lemma pure (a : α) : Extends (Pure.pure a : Read α) := by
  intro data c b c' _ h
  cases h
  exact ⟨rfl, rfl⟩

lemma throw (e : LoadError) : Extends (MonadExcept.throw e : Read α) := by
  intro data c b c' _ h
  cases h

lemma lift (result : Except LoadError α) : Extends (Read.lift result) := by
  intro data c b c' _ h
  cases h
  exact ⟨rfl, rfl⟩

lemma position : Extends Read.position := by
  intro data c b c' _ h
  cases h
  exact ⟨rfl, rfl⟩

lemma bind {x : Read α} {f : α → Read β} (hx : Extends x) (hf : ∀ a, Extends (f a)) :
    Extends (x >>= f) := by
  intro data c b c' hfront h
  obtain ⟨a, middle, ha, hb⟩ := exists_of_bind h
  obtain ⟨hdata, hx⟩ := hx data c a middle hfront ha
  obtain ⟨hdata', hf⟩ := hf a data middle b c' (by rwa [hdata]) hb
  refine ⟨hdata'.trans hdata, ?_⟩
  rw [bind_apply, hx]
  exact hf

/-- The bytes of the beginning are there, and those behind them make no difference. -/
lemma bytes (count : Nat) : Extends (Read.bytes count) := by
  intro data c b c' hfront h
  obtain ⟨rfl, hlength, hb⟩ := bytes_ok h
  have hfits : c.position + count ≤ data.size := by
    have hle := hfront.length_le
    rw [Array.length_toList, Array.length_toList] at hle
    unfold Read.bytes at h
    split at h
    · rename_i hfits
      exact hfits.trans hle
    · cases h
  have hextract : (data.extract c.position (c.position + count)).toList = b := by
    rw [Array.toList_extract, List.extract_eq_take_drop, Nat.add_sub_cancel_left, ← hlength]
    exact (List.prefix_iff_eq_take.mp (hb.trans (hfront.drop c.position))).symm
  refine ⟨rfl, ?_⟩
  rw [Read.bytes, if_pos hfits, hextract]
  rfl

lemma number (width : Nat) : Extends (Read.number width) := (bytes width).bind fun _ => pure _
lemma u8 : Extends Read.u8 := (number 1).bind fun _ => pure _
lemma u16 : Extends Read.u16 := (number 2).bind fun _ => pure _
lemma u32 : Extends Read.u32 := (number 4).bind fun _ => pure _

/-- A string that ends in the beginning is the same in all of the data. -/
lemma stringAt (offset : Nat) : Extends (Read.stringAt offset) := by
  intro data c s c' hfront h
  obtain ⟨rfl, hs⟩ := stringAt_ok h
  exact ⟨rfl, stringAt_eq (string?_eq_some_iff.mpr (hs.of_beginning hfront))⟩

lemma reference : Extends Read.reference := u32.bind fun _ => stringAt _

lemma text : Extends Read.text := reference.bind fun _ => lift _

lemma discard {x : Read α} (h : Extends x) : Extends (Functor.discard x) := h.bind fun _ => pure _

lemma timesOnto {step : Read α} (h : Extends step) (done : List α) (n : Nat) :
    Extends (Read.timesOnto step done n) := by
  induction n generalizing done with
  | zero => exact pure _
  | succ n ih => exact h.bind fun a => ih (a :: done)

lemma times {step : Read α} (h : Extends step) (n : Nat) : Extends (Read.times n step) :=
  h.timesOnto [] n

lemma tag : Extends Read.tag := (bytes 3).bind fun _ => lift _

lemma magic (expected : Bytes) (name : String) : Extends (Read.magic expected name) := by
  intro data c u c' hfront h
  obtain ⟨hdata, hbytes⟩ := bytes expected.length data c expected c' hfront (magic_ok h)
  refine ⟨hdata, ?_⟩
  rw [Read.magic, hbytes]
  exact if_pos rfl

lemma header (expected : Bytes) (name : String) : Extends (Read.header expected name) :=
  (magic expected name).bind fun _ => u16.bind fun _ => by
    split
    · exact throw _
    · exact pure _

/-- Strings that end in the beginning are passed over in all of the data. -/
lemma skipStrings : Extends Read.skipStrings := by
  intro data c u c' hfront h
  have hle := hfront.length_le
  rw [Array.length_toList, Array.length_toList] at hle
  unfold Read.skipStrings at h
  split at h
  · cases h
  rename_i stop middle hstop
  obtain ⟨hdata, hstop⟩ := u32 data c stop middle hfront hstop
  split at h
  · cases h
  rename_i hbounds
  cases h
  refine ⟨hdata, ?_⟩
  rw [Read.skipStrings, hstop]
  refine if_neg ?_
  rw [hdata] at hbounds
  simp only
  omega

end Extends

end Read

namespace Walk

variable {α : Type} {body : SectionTag → Read α} {forward : ∀ tag, (body tag).Forward}
  {c c' : Cursor} {as all : List α} {data : Array UInt8}

lemma extends_readSection (hbody : ∀ tag, (body tag).Extends) : (readSection body).Extends :=
  Read.Extends.tag.bind hbody

/-- The sections that a walk passes in a beginning of the data are passed in all of the data. -/
lemma Passes.of_beginning (hbody : ∀ tag, (body tag).Extends) (hfront : c.data.toList <+: data.toList)
    (h : Passes body c as c') : Passes body { c with data } as { c' with data } := by
  induction h with
  | stop c => exact .stop _
  | @read c middle c' a as hin hread rest ih =>
    obtain ⟨hdata, hread⟩ := extends_readSection hbody data _ _ _ hfront hread
    have hle := hfront.length_le
    rw [Array.length_toList, Array.length_toList] at hle
    exact .read (hin.trans_le hle) hread (ih (by rwa [hdata]))

/-- What a walk passes comes first of all sections. -/
lemma Passes.prefix_of_sections (h : Passes body c as c') (hall : sections body forward c = .ok all) :
    as <+: all := by
  induction h generalizing all with
  | stop c => exact List.nil_prefix
  | read hin hread rest ih =>
    rw [sections_of_ok hin hread] at hall
    obtain ⟨behind, hbehind, rfl⟩ := Outcome.map_eq_ok_iff.mp hall
    exact List.cons_prefix_cons.mpr ⟨rfl, ih hbehind⟩

end Walk

end LetterToSound
