import Mathlib
import LetterToSound.Proofs.Container.Success

/-!
# What writing can fail for

Where plans say the sizes of their sections, writing them fails only for want of room: the sink takes no
more, an offset does not fit in 32 bits, or a section has more entries than can be counted. No size is
found to be wrong at the end of a section, and no string is asked for where there is no table for it.
Without a limit of the sink the room that is left to want is known beforehand, from the plans alone.
-/

namespace LetterToSound

/-- A fault that lies in the sink or in the range of offsets. -/
def WriteError.IsOutside : WriteError → Prop
  | offsetOverflow | refused => True
  | sizeMismatch _ _ | noStringTable => False

namespace Writer

variable {w : Writer}

/-- A step that fails for want of room, if at all. -/
def Confined {α : Type} (x : Write α) (w : Writer) : Prop :=
  ∀ e w', x w = (.error e, w') → e.IsOutside

namespace Confined

variable {α β : Type} {x : Write α} {f : α → Write β}

lemma pure (a : α) : Confined (Pure.pure a : Write α) w := fun _ _ h => by cases h

lemma get : Confined (MonadState.get : Write Writer) w := fun _ _ h => by cases h

lemma update (f : Writer → Writer) : Confined (modify f : Write Unit) w := fun _ _ h => by cases h

lemma bind (hx : Confined x w) (hf : ∀ a w', x w = (.ok a, w') → Confined (f a) w') :
    Confined (x >>= f) w := by
  intro e w' h
  rw [Write.bind_apply] at h
  split at h
  · rename_i a w₁ hxw
    exact hf a w₁ hxw e w' h
  · rename_i hxw
    cases h
    exact hx e w' hxw

end Confined

lemma put_confined (bytes : Bytes) : Confined (put bytes) w := by
  intro e w' h
  unfold put at h
  split at h
  · cases h
    trivial
  · cases h

lemma reserve_confined (size : Nat) : Confined (reserve size) w := by
  intro e w' h
  unfold reserve at h
  split at h
  · cases h
    trivial
  · cases h

lemma enter_confined (s : Bytes) : Confined (enter s) w := by
  intro e w' h
  unfold enter at h
  split at h
  · cases h
    trivial
  · cases h

lemma putFixed_confined (v : Single) : Confined (putFixed v) w :=
  (put_confined _).bind fun _ _ _ => put_confined _

lemma putString_confined (s : Bytes) : Confined (putString s) w :=
  (put_confined _).bind fun _ _ _ => put_confined _

lemma putStrings_confined (strings : List Bytes) : Confined (putStrings strings) w := by
  induction strings generalizing w with
  | nil => exact .pure ()
  | cons s rest ih => exact (putString_confined s).bind fun _ _ _ => ih

/-- A reference needs a table only if its string is not there yet. -/
lemma putReference_confined {start : Nat} {strings : List Bytes} {s : Bytes}
    (hw : Pools start strings w) (hpooling : w.pooling = true ∨ s ∈ strings) :
    Confined (putReference s) w := by
  refine Confined.get.bind fun w₁ w₂ hget => ?_
  cases hget
  rw [hw.places s]
  by_cases hs : s ∈ strings
  · rw [if_pos hs]
    exact (put_confined _).bind fun _ _ _ => .pure _
  · rw [if_neg hs]
    refine Confined.get.bind fun w₁ w₂ hget => ?_
    cases hget
    rw [hpooling.resolve_right hs]
    exact (enter_confined s).bind fun _ _ _ => (put_confined _).bind fun _ _ _ => .pure _

lemma write_confined {start : Nat} {strings : List Bytes} {d : Datum} (hw : Pools start strings w)
    (hpooling : w.pooling = true ∨ d.enter strings = strings) : Confined d.write w := by
  cases d with
  | pooled s =>
    have hmem : w.pooling = true ∨ s ∈ strings := by
      refine hpooling.imp_right fun hsame => ?_
      rw [← hsame]
      exact Pool.mem_enter_self strings s
    exact (putReference_confined hw hmem).bind fun _ _ _ => .pure _
  | _ =>
    refine Confined.bind ?_ fun _ _ _ => .pure _
    first
    | exact putFixed_confined _
    | exact putString_confined _
    | exact put_confined _

lemma putAll_confined {start : Nat} {strings : List Bytes} {body : List Datum}
    (hw : Pools start strings w)
    (hpooling : w.pooling = true ∨ body.foldl Datum.enter strings = strings) :
    Confined (putAll body) w := by
  induction body generalizing w strings with
  | nil => exact .pure ()
  | cons d rest ih =>
    rw [List.foldl_cons] at hpooling
    have hstep (h : rest.foldl Datum.enter (d.enter strings) = strings) := enter_eq_of_foldl_eq h
    refine ((write_confined hw (hpooling.imp_right hstep)).bind fun _ _ _ => .pure _).bind
      fun _ w₂ h => ?_
    obtain ⟨_, w₁, hput, h⟩ := Write.exists_of_bind_eq_ok h
    cases h
    obtain ⟨hw₁, -, hsame, -⟩ := write_ok hw hput
    refine ih hw₁ ?_
    rw [hsame]
    exact hpooling.imp_right fun hall => hall.trans (hstep hall).symm

lemma beginSection_confined (magic : Bytes) (size : UInt32) (pooling : Bool) :
    Confined (beginSection magic size pooling) w := by
  have hmagic (w' : Writer) : Confined (do modify fun w => { w with pooling }; put magic) w' :=
    (Confined.update _).bind fun _ _ _ => put_confined magic
  refine (reserve_confined _).bind fun _ w₁ _ => ?_
  cases pooling with
  | false => exact hmagic w₁
  | true => exact (reserve_confined _).bind fun _ w₂ _ => hmagic w₂

lemma putPool_confined : Confined putPool w := by
  refine (put_confined _).bind fun _ _ _ => Confined.get.bind fun _ _ _ =>
    (put_confined _).bind fun _ _ _ => ?_
  refine Confined.bind (fun _ _ h => by cases h) fun strings _ _ => ?_
  exact (putStrings_confined strings).bind fun _ _ _ => .update _

/-- The size of a section is not found to be wrong if what has been written and its table end where
the offset is. -/
lemma endSection_confined {start : Nat} {strings : List Bytes} (hw : Pools start strings w)
    (hwritten : w.offset = w.written +
      if w.pooling then (SectionPlan.stringTable start strings).length else 0) :
    Confined endSection w := by
  have hcheck {w' : Writer} (heq : w'.written = w'.offset) : Confined checkSize w' := by
    intro e w'' h
    rw [checkSize, if_pos heq] at h
    cases h
  refine Confined.get.bind fun _ _ hget => ?_
  cases hget
  cases hpooling : w.pooling with
  | false =>
    rw [hpooling] at hwritten
    exact hcheck hwritten.symm
  | true =>
    refine putPool_confined.bind fun _ w₁ hput => hcheck ?_
    obtain ⟨hreceived, hoffset, -, -⟩ := putPool_ok hw hput
    have hlength := congrArg List.length hreceived
    rw [hpooling, if_pos rfl] at hwritten
    rw [List.length_append, Array.length_toList, Array.length_toList] at hlength
    rw [hoffset, hwritten]
    exact hlength

/-- A section whose plan says its size, or goes no further than what can be counted, fails for want of
room, if at all. -/
lemma putSection_confined {plan : SectionPlan} (hw : w.Ready)
    (hpooling : plan.pooling = true ∨ plan.strings = [])
    (hexact : plan.excess = none → plan.Exact) : Confined (putSection plan) w := by
  refine (beginSection_confined _ _ _).bind fun _ w₁ hbegin => ?_
  obtain ⟨-, -, -, hsame, -⟩ := beginSection_ok hbegin
  have hw₁ := pools_of_beginSection hw hbegin
  refine (putAll_confined hw₁ (hsame ▸ hpooling)).bind fun _ w₂ hbody => ?_
  cases hexcess : plan.excess with
  | some excess => exact .pure _
  | none =>
    have hend : w₂.offset = w₂.written + if w₂.pooling then
        (SectionPlan.stringTable (plan.poolStart w.written) plan.strings).length else 0 := by
      rw [offset_of_body hw hpooling hbegin hbody, written_of_body hw hbegin hbody,
        (hexact hexcess).size]
    exact (endSection_confined (putAll_ok hw₁ hbody).1 hend).bind fun _ _ _ => .pure _

/-- Sections one behind the other fail for want of room, or because there is more in one than can be
counted. -/
lemma exists_of_emit_error {plans : List SectionPlan} {e : EmitError} {w' : Writer} (hw : w.Ready)
    (hpooling : ∀ plan ∈ plans, plan.pooling = true ∨ plan.strings = [])
    (hexact : ∀ plan ∈ plans, plan.excess = none → plan.Exact)
    (h : emit plans w = (.error e, w')) :
    (∃ cause, e = .write cause ∧ cause.IsOutside) ∨ ∃ cause, e = .excess cause := by
  induction plans generalizing w with
  | nil => cases h
  | cons plan rest ih =>
    obtain ⟨hpooling, hpoolings⟩ := List.forall_mem_cons.mp hpooling
    obtain ⟨hexact, hexacts⟩ := List.forall_mem_cons.mp hexact
    unfold emit at h
    split at h
    · rename_i cause _ hput
      cases h
      exact .inl ⟨cause, rfl, putSection_confined hw hpooling hexact cause _ hput⟩
    · cases h
      exact .inr ⟨_, rfl⟩
    · rename_i w₁ hput
      exact ih (putSection_ok hw hput).2.1 hpoolings hexacts h

end Writer

end LetterToSound
