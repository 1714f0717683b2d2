import Mathlib
import LetterToSound.Proofs.Container.Limits

/-!
# Sizes known beforehand

How large a database is can be said before it is written. A section takes its header, its entries and
its string table, and of strings that repeat within a section the table holds one. Where the plans of
a database say these sizes, the database can be written just when its tables can be counted and all of
it fits in 32 bits; what is written then has the size that has been said, and what can go wrong has
nothing to do with the sizes.
-/

namespace LetterToSound

namespace Datum

/-- The string that a value refers to. -/
def string? : Datum → Option Bytes
  | pooled s => some s
  | _ => none

/-- Entries of one size take it as often as there are entries. -/
lemma sum_size_flatMap {α : Type} {entrySize : Nat} {entry : α → List Datum} (xs : List α)
    (h : ∀ x, ((entry x).map size).sum = entrySize) :
    ((xs.flatMap entry).map size).sum = xs.length * entrySize := by
  induction xs with
  | nil => simp
  | cons x xs ih =>
    rw [List.flatMap_cons, List.map_append, List.sum_append, h x, ih, List.length_cons, Nat.succ_mul,
      Nat.add_comm]

end Datum

namespace Pool

/-- The bytes of the string table that holds strings, each of them once. -/
def tableSize (strings : List Bytes) : Nat :=
  Layout.stringTableHeaderSize + (strings.dedup.map fun s => s.length + 1).sum

lemma length_bytes (strings : List Bytes) :
    (bytes strings).length = (strings.map fun s => s.length + 1).sum := by
  simp [bytes, List.length_flatMap]

lemma nodup_enter {strings : List Bytes} (h : strings.Nodup) (s : Bytes) :
    (enter strings s).Nodup := by
  by_cases hs : s ∈ strings
  · rwa [enter_of_mem hs]
  · rw [enter_of_not_mem hs]
    exact h.append (List.nodup_singleton s) (by simpa using hs)

lemma mem_enter {strings : List Bytes} {s t : Bytes} :
    t ∈ enter strings s ↔ t ∈ strings ∨ t = s := by
  by_cases hs : s ∈ strings
  · rw [enter_of_mem hs]
    exact ⟨.inl, fun h => h.elim id fun hts => hts ▸ hs⟩
  · simp [enter_of_not_mem hs]

end Pool

namespace SectionPlan

/-- Values enter into a table the strings that they refer to, each of them once. -/
lemma foldl_enter {strings : List Bytes} (h : strings.Nodup) (body : List Datum) :
    (body.foldl Datum.enter strings).Nodup ∧ ∀ s, s ∈ body.foldl Datum.enter strings ↔
      s ∈ strings ∨ s ∈ body.filterMap Datum.string? := by
  induction body generalizing strings with
  | nil => exact ⟨h, by simp⟩
  | cons d rest ih =>
    cases d with
    | pooled t =>
      obtain ⟨hnodup, hmem⟩ := ih (Pool.nodup_enter h t)
      have hcons : (Datum.pooled t :: rest).filterMap Datum.string? =
          t :: rest.filterMap Datum.string? := rfl
      refine ⟨hnodup, fun s => (hmem s).trans ?_⟩
      rw [Pool.mem_enter, hcons, List.mem_cons, or_assoc]
    | _ => exact ih h

/-- The string table of a section has the size of one that holds the strings of its values. -/
lemma length_poolBytes (plan : SectionPlan) :
    Layout.stringTableHeaderSize + (Pool.bytes plan.strings).length =
      Pool.tableSize (plan.body.filterMap Datum.string?) := by
  obtain ⟨hnodup, hmem⟩ := foldl_enter List.nodup_nil plan.body
  have hperm : List.Perm plan.strings (plan.body.filterMap Datum.string?).dedup := by
    refine (List.perm_ext_iff_of_nodup hnodup (List.nodup_dedup _)).mpr fun s => ?_
    rw [hmem, List.mem_dedup]
    simp
  rw [Pool.length_bytes, (hperm.map _).sum_nat, Pool.tableSize]

lemma strings_eq_nil {plan : SectionPlan} (h : plan.body.filterMap Datum.string? = []) :
    plan.strings = [] := by
  refine List.eq_nil_iff_forall_not_mem.mpr fun s hs => ?_
  rw [strings, (foldl_enter List.nodup_nil plan.body).2, h] at hs
  simp at hs

/-- The bytes of sections whose plans say their sizes take the room that the plans say. -/
lemma length_allBytes {image : List SectionPlan}
    (h : ∀ plan ∈ image, plan.Exact) (start : Nat) :
    (allBytes start image).length = (image.map declared).sum := by
  induction image generalizing start with
  | nil => rfl
  | cons plan rest ih =>
    obtain ⟨hplan, hrest⟩ := List.forall_mem_cons.mp h
    rw [allBytes, List.length_append, ih hrest, hplan.length_bytes, List.map_cons, List.sum_cons]

/-- What is known of sections before they are written: on which condition their entries can be
counted, and how many bytes they take then. -/
structure Foretold (image : List SectionPlan) (countable : Prop) (room : Nat) : Prop where
  excess : (∀ plan ∈ image, plan.excess = none) ↔ countable
  exact : ∀ plan ∈ image, plan.excess = none → plan.Exact
  pooling : ∀ plan ∈ image, plan.pooling = true ∨ plan.strings = []
  declared : countable → (image.map SectionPlan.declared).sum = room

namespace Foretold

variable {image image' : List SectionPlan} {countable countable' : Prop} {room room' : Nat}

lemma nil : Foretold [] True 0 := ⟨by simp, by simp, by simp, fun _ => rfl⟩

lemma congr (h : Foretold image countable room) (hcountable : countable ↔ countable')
    (hroom : room = room') : Foretold image countable' room' := by
  rw [← hcountable, ← hroom]
  exact h

lemma append (h : Foretold image countable room) (h' : Foretold image' countable' room') :
    Foretold (image ++ image') (countable ∧ countable') (room + room') where
  excess := by rw [List.forall_mem_append, h.excess, h'.excess]
  exact := List.forall_mem_append.mpr ⟨h.exact, h'.exact⟩
  pooling := List.forall_mem_append.mpr ⟨h.pooling, h'.pooling⟩
  declared hall := by rw [List.map_append, List.sum_append, h.declared hall.1, h'.declared hall.2]

/-- The sections for the members of a list are foretold one by one. -/
lemma map {α : Type} {xs : List α} {plan : α → SectionPlan} {countable : α → Prop} {room : α → Nat}
    (h : ∀ x ∈ xs, Foretold [plan x] (countable x) (room x)) :
    Foretold (xs.map plan) (∀ x ∈ xs, countable x) (xs.map room).sum := by
  induction xs with
  | nil => exact nil.congr (by simp) rfl
  | cons x xs ih =>
    obtain ⟨hx, hxs⟩ := List.forall_mem_cons.mp h
    have happend := hx.append (ih hxs)
    rwa [← List.forall_mem_cons] at happend

/-- Where there is an excess, nothing is to be said of the room. -/
lemma of_excess {plan : SectionPlan} (h : plan.excess ≠ none)
    (hpooling : plan.pooling = true ∨ plan.strings = []) (hcountable : ¬countable) :
    Foretold [plan] countable room where
  excess := by simpa [h] using hcountable
  exact := by simp [h]
  pooling := by simpa using hpooling
  declared hcountable' := absurd hcountable' hcountable

/-- A section takes the size that its plan says and its string table. -/
lemma of_exact {plan : SectionPlan} (h : plan.Exact)
    (hpooling : plan.pooling = true ∨ plan.body.filterMap Datum.string? = [])
    (hcountable : countable) : Foretold [plan] countable (plan.size.toNat +
      if plan.pooling then Pool.tableSize (plan.body.filterMap Datum.string?) else 0) where
  excess := by simpa [h.excess] using hcountable
  exact := by simp [h]
  pooling := by simpa using hpooling.imp_right strings_eq_nil
  declared _ := by simp [SectionPlan.declared, length_poolBytes]

/-- A section that counts its entries takes its header, as much for each entry, and its string
table. -/
lemma counted {tag : SectionTag} {pooling : Bool} {header count entrySize : Nat}
    {values : List Datum} (hfits : header + UInt16.size * entrySize < UInt32.size)
    (hpooling : pooling = true ∨ values.filterMap Datum.string? = [])
    (hsize : Layout.headerSize + (values.map Datum.size).sum = header + count * entrySize) :
    Foretold [.counted tag (Layout.sectionSize header count entrySize) pooling count values]
      (count < UInt16.size) (header + count * entrySize +
        if pooling then Pool.tableSize (values.filterMap Datum.string?) else 0) := by
  unfold SectionPlan.counted
  split
  case isFalse hcount => exact of_excess (by simp) (hpooling.imp_right fun _ => rfl) hcount
  case isTrue hcount =>
    have hword : (Layout.sectionSize header count entrySize).toNat = header + count * entrySize := by
      have hle : count * entrySize ≤ UInt16.size * entrySize := Nat.mul_le_mul_right _ hcount.le
      exact UInt32.toNat_ofNat_of_lt' (by omega)
    rw [← hword]
    refine of_exact ⟨rfl, ?_⟩ hpooling hcount
    rw [hword, ← hsize, SectionTag.length_bytes, List.map_cons, List.sum_cons, Datum.size,
      Layout.headerSize]
    omega

end Foretold

end SectionPlan

/-- What writing a database comes to: it goes well just if the tables can be counted and the whole fits
in 32 bits, it takes the room that has been said, and it never fails for a size that is wrong or a
string without a table. -/
structure Sized (write : Option Nat → Except CompileError Unit × Array UInt8) (countable : Prop)
    (room : Nat) : Prop where
  written : (∃ data, write none = (.ok (), data)) ↔ countable ∧ room < UInt32.size
  of_written : ∀ limit data, write limit = (.ok (), data) → countable ∧ data.size = room
  fault : ∀ limit e data, write limit = (.error e, data) →
    e.fault ≠ .output .noStringTable ∧
      ∀ written expected, e.fault ≠ .output (.sizeMismatch written expected)

/-- Sections that are reported not to have been written have not been written. -/
lemma exists_of_assemble_error {image : List SectionPlan} {limit : Option Nat}
    {e : CompileError} {data : Array UInt8}
    (h : assemble limit image = (.error e, data)) :
    ∃ cause, Writer.run limit image = (.error cause, data) ∧ e = CompileError.ofEmit cause := by
  unfold assemble at h
  split at h
  · cases h
  · rename_i cause _ hrun
    cases h
    exact ⟨cause, hrun, rfl⟩

namespace SectionPlan.Foretold

variable {image : List SectionPlan} {countable : Prop} {room : Nat}

lemma all_exact (h : Foretold image countable room) (hcountable : countable) :
    ∀ plan ∈ image, plan.Exact :=
  fun plan hplan => h.exact plan hplan (h.excess.mpr hcountable plan hplan)

/-- What is known of sections before they are written is what writing them comes to. -/
theorem sized (h : Foretold image countable room) :
    Sized (fun limit => assemble limit image) countable room := by
  have hwritten (limit : Option Nat) (data : Array UInt8)
      (hwrite : assemble limit image = (.ok (), data)) :
      countable ∧ data.size = room ∧ data.size < UInt32.size := by
    obtain ⟨hdata, hsize, hexact⟩ := Writer.run_ok (run_of_assemble hwrite)
    have hcountable := h.excess.mp fun plan hplan => (hexact plan hplan).excess
    rw [← h.declared hcountable, ← length_allBytes hexact 0, ← hdata, Array.length_toList]
    exact ⟨hcountable, rfl, hsize⟩
  refine ⟨⟨?_, ?_⟩, fun limit data hwrite => ?_, fun limit e data hwrite => ?_⟩
  · rintro ⟨data, hwrite⟩
    obtain ⟨hcountable, hroom, hsize⟩ := hwritten none data hwrite
    exact ⟨hcountable, hroom ▸ hsize⟩
  · rintro ⟨hcountable, hfits⟩
    have hexact := h.all_exact hcountable
    refine exists_assemble hexact h.pooling ?_
    rwa [length_allBytes hexact, h.declared hcountable]
  · obtain ⟨hcountable, hroom, -⟩ := hwritten limit data hwrite
    exact ⟨hcountable, hroom⟩
  · obtain ⟨cause, hrun, rfl⟩ := exists_of_assemble_error hwrite
    obtain ⟨hemit, -⟩ := Prod.mk.inj hrun
    obtain ⟨cause, rfl, houtside⟩ | ⟨excess, rfl⟩ := Writer.exists_of_emit_error
      (Writer.ready_empty limit) h.pooling h.exact (Prod.ext hemit rfl)
    · cases cause with
      | offsetOverflow | refused => simp [CompileError.ofEmit]
      | sizeMismatch | noStringTable => exact houtside.elim
    · simp [CompileError.ofEmit]

end SectionPlan.Foretold

end LetterToSound
