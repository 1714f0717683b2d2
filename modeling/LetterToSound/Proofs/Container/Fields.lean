import Mathlib
import LetterToSound.Proofs.Container.Reading

/-!
# Entries field by field

A step of reading takes bytes for a value if, wherever these come next in the data, it gives the value
and stops behind them. Steps that follow one another take their bytes one behind the other, so what
is read for an entry is known from its fields, for a section from its entries, and for sections that
stand one behind the other from each of them.
-/

namespace LetterToSound

namespace Read

open Cursor

variable {α β : Type} {data : Array UInt8} {place : Bytes → Nat} {x : Read α} {f : α → Read β}
  {a : α} {b : β} {xs ys : Bytes}

/-- A step that takes bytes of the data for a value. -/
def Takes (data : Array UInt8) (x : Read α) (xs : Bytes) (a : α) : Prop :=
  ∀ (c : Cursor) (ys : Bytes), c.data = data → c.rest = xs ++ ys → x c = (.ok a, c.skip xs.length)

namespace Takes

lemma pure (a : α) : Takes data (Pure.pure a) [] a := fun _ _ _ _ => rfl

lemma lift (a : α) : Takes data (Read.lift (.ok a)) [] a := fun _ _ _ _ => rfl

/-- Two steps take their bytes one behind the other. -/
lemma bind (hx : Takes data x xs a) (hf : Takes data (f a) ys b) :
    Takes data (x >>= f) (xs ++ ys) b := by
  intro c zs hdata h
  rw [List.append_assoc] at h
  rw [bind_apply, hx c _ hdata h]
  dsimp only
  rw [hf (c.skip xs.length) zs hdata (rest_skip h), skip_skip, List.length_append]

/-- A step that takes nothing more leaves the bytes of the one before it. -/
lemma bind_nil (hx : Takes data x xs a) (hf : Takes data (f a) [] b) : Takes data (x >>= f) xs b := by
  have h := hx.bind hf
  rwa [List.append_nil] at h

/-- Where a step stands makes no difference to what it takes. -/
lemma bind_position {f : Nat → Read β} (hf : ∀ offset, Takes data (f offset) ys b) :
    Takes data (position >>= f) ys b := fun c zs hdata h => hf c.position c zs hdata h

lemma u8 (b : UInt8) : Takes data Read.u8 [b] b := fun _ _ _ h => u8_eq h

lemma u16 (n : UInt16) : Takes data Read.u16 (LittleEndian.encode 2 n.toNat) n := by
  intro c ys _ h
  rw [u16_eq h n.toNat_lt, UInt16.ofNat_toNat, LittleEndian.length_encode]

lemma u32 (n : UInt32) : Takes data Read.u32 (LittleEndian.encode 4 n.toNat) n := by
  intro c ys _ h
  rw [u32_eq h n.toNat_lt, UInt32.ofNat_toNat, LittleEndian.length_encode]

lemma u64 (n : UInt64) : Takes data Read.u64 (LittleEndian.encode 8 n.toNat) n := by
  intro c ys _ h
  rw [Read.u64, bind_apply, number_eq h (by decide) n.toNat_lt, LittleEndian.length_encode]
  simp only [UInt64.ofNat_toNat, pure_apply]

lemma single (s : Single) : Takes data Read.single (LittleEndian.encode 4 s.bits.toNat) s :=
  (u32 s.bits).bind_nil (pure s)

lemma fixed (whole fraction : UInt8) :
    Takes data Read.fixed [whole, fraction] (FixedPoint.decode whole fraction) :=
  (u8 whole).bind ((u8 fraction).bind_nil (pure _))

/-- The text of a string is read at a reference to it. -/
lemma text {s : Bytes} {t : String} (hs : Refers data place s)
    (ht : Bytes.toString? (Bytes.cut s) = some t) :
    Takes data Read.text (LittleEndian.encode 4 (place s)) t := by
  rintro c ys rfl h
  rw [text_eq hs h, decoded, ht, LittleEndian.length_encode]

/-- The header of a database is its magic and the byte order witness. -/
lemma header {magic : Bytes} (name : String) (hne : magic ≠ []) :
    Takes data (Read.header magic name)
      (magic ++ LittleEndian.encode 2 Layout.byteOrderWitness.toNat) () := by
  have hmagic : Takes data (Read.magic magic name) magic () := fun c ys _ h => by
    rw [Read.magic, bytes_eq h hne]
    simp only [if_true]
  exact hmagic.bind ((u16 _).bind_nil (pure ()))

lemma tag (t : SectionTag) : Takes data Read.tag t.bytes t := fun c ys _ h => by
  rw [tag_eq h, SectionTag.length_bytes]

/-- Steps that take the bytes of an entry each take those of all entries. -/
lemma times {γ : Type} {step : Read β} {entries : List γ} {enc : γ → Bytes} {value : γ → β}
    (h : ∀ e ∈ entries, Takes data step (enc e) (value e)) :
    Takes data (Read.times entries.length step) (entries.flatMap enc) (entries.map value) := by
  rintro c ys rfl hrest
  have hok : entries.mapM (fun e => (Pure.pure (value e) : Except LoadError β)) =
      .ok (entries.map value) := List.mapM_pure
  exact times_eq_of_ok hrest (fun e he d zs hdata hd => h e he d zs hdata hd) hok

end Takes

end Read

namespace SectionPlan

/-- A section whose plan is read back, wherever its strings stand. -/
def ReadAs {α : Type} (body : SectionTag → Read α) (plan : SectionPlan) (a : α) : Prop :=
  ∀ (data : Array UInt8) (place : Bytes → Nat),
    (∀ s, Datum.pooled s ∈ plan.body → Cursor.Refers data place s) →
      Read.Takes data (Walk.readSection body) (plan.magic ++ plan.body.flatMap (Datum.bytes place)) a

end SectionPlan

namespace Walk

open Cursor

variable {α : Type} {body : SectionTag → Read α} {forward : ∀ tag, (body tag).Forward} {c : Cursor}

/-- A section of which the plan is read back is read where it stands. -/
lemma readSection_of_readAs {plan : SectionPlan} {a : α} {ys : Bytes} (hread : plan.ReadAs body a)
    (hexact : plan.Exact) (hpool : plan.pooling = true ∨ ∀ s, Datum.pooled s ∉ plan.body)
    (hsize : c.data.size < UInt32.size) (h : c.rest = plan.bytes c.position ++ ys) :
    readSection body c = (.ok a, c.skip (plan.magic ++ plan.values c.position).length) := by
  refine hread c.data _ (fun s hs => ?_) c _ rfl (by
    rw [h, SectionPlan.bytes, ← List.append_assoc, List.append_assoc]
    rfl)
  rcases hpool with hpooling | hnone
  · exact SectionPlan.refers_of_rest hexact hpooling hsize h (SectionPlan.mem_strings hs)
  · exact absurd hs (hnone s)

/-- Sections that stand one behind the other are read back in their order, with nothing between them
but strings. -/
theorem exists_sections_eq {plans : List SectionPlan} {found : List α} {strings : α}
    (hbody : body .strings = do Read.skipStrings; return strings)
    (hread : List.Forall₂ (SectionPlan.ReadAs body) plans found)
    (hexact : ∀ plan ∈ plans, plan.Exact) (hmagic : ∀ plan ∈ plans, plan.magic ≠ [])
    (hpool : ∀ plan ∈ plans, plan.pooling = true ∨ ∀ s, Datum.pooled s ∉ plan.body)
    (hsize : c.data.size < UInt32.size) (h : c.rest = SectionPlan.allBytes c.position plans) :
    ∃ sections, Walk.sections body forward c = .ok sections ∧
      ∀ (β : Type) (f : α → List β), f strings = [] → sections.flatMap f = found.flatMap f := by
  induction hread generalizing c with
  | nil =>
    have hend : c.data.size ≤ c.position := by
      simpa [rest, SectionPlan.allBytes, List.drop_eq_nil_iff] using h
    exact ⟨[], sections_of_end hend, fun _ _ _ => rfl⟩
  | @cons plan a plans found hplan _ ih =>
    obtain ⟨hexact, hexacts⟩ := List.forall_mem_cons.mp hexact
    obtain ⟨hmagic, hmagics⟩ := List.forall_mem_cons.mp hmagic
    obtain ⟨hpool, hpools⟩ := List.forall_mem_cons.mp hpool
    rw [SectionPlan.allBytes] at h
    have hsection := readSection_of_readAs hplan hexact hpool hsize h
    have hne : plan.bytes c.position ≠ [] := by simp [SectionPlan.bytes, hmagic]
    have hfits : (c.skip (plan.bytes c.position).length).data.size < UInt32.size := hsize
    obtain ⟨sections, hsections, hflat⟩ := ih hexacts hmagics hpools hfits (rest_skip h)
    have hfirst : Walk.sections body forward c = (Walk.sections body forward
        (c.skip (plan.magic ++ plan.values c.position).length)).map (a :: ·) :=
      sections_of_ok (position_lt_of_rest h hne) hsection
    cases hpooling : plan.pooling with
    | true =>
      rw [sections_behind_values hbody hexact hpooling hsize h, hsections] at hfirst
      exact ⟨a :: strings :: sections, hfirst, fun β f hf => by simp [hf, hflat β f hf]⟩
    | false =>
      have hbytes : plan.bytes c.position = plan.magic ++ plan.values c.position := by
        simp [SectionPlan.bytes, hpooling]
      rw [← hbytes, hsections] at hfirst
      exact ⟨a :: sections, hfirst, fun β f hf => by simp [hflat β f hf]⟩

end Walk

end LetterToSound
