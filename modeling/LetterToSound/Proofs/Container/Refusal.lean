import Mathlib
import LetterToSound.Compile
import LetterToSound.Proofs.Container.Emission

/-!
# Sinks that take no more

The same steps are taken twice, with a sink that has a limit and with a sink that has none. As long as
nothing is refused the two writers differ in the limit alone. Where the sink with the limit refuses
bytes, the step fails and so do all behind it, while the other sink has taken these bytes and goes on.
So a limit only cuts off: what has been received is a beginning of what a sink without a limit
receives, all of it if the limit is large enough for that, and else writing is reported to have failed.
-/

namespace LetterToSound

namespace Writer

/-- The writer with another limit of its sink. -/
def limited (w : Writer) (limit : Option Nat) : Writer := { w with sink := { w.sink with limit } }

variable {ε α β : Type}

/-- How something ends with a limit, compared with how it ends without one: in the same way, or it has
failed with a refusal, and without the limit more has been received behind the same bytes. -/
inductive Curtails (refusal : ε) (limit : Nat) :
    Except ε α × Writer → Except ε α × Writer → Prop
  | same (result : Except ε α) {w : Writer} (hin : w.written ≤ limit) :
      Curtails refusal limit (result, w.limited (some limit)) (result, w.limited none)
  | refused (result : Except ε α) {w w' : Writer} (hin : w.written ≤ limit)
      (hout : limit < w'.written)
      (hfront : w.sink.received.toList <+: w'.sink.received.toList) :
      Curtails refusal limit (.error refusal, w) (result, w')

/-- A step that loses nothing of what has been received, and that a limit of the sink only cuts off. -/
structure Curtailed (x : Write α) : Prop where
  grows : ∀ w : Writer, w.sink.received.toList <+: (x w).2.sink.received.toList
  curtails : ∀ (limit : Nat) (w : Writer), w.written ≤ limit →
    Curtails .refused limit (x (w.limited (some limit))) (x (w.limited none))

lemma written_le_written {w w' : Writer}
    (h : w.sink.received.toList <+: w'.sink.received.toList) : w.written ≤ w'.written := by
  simpa [written] using h.length_le

namespace Curtailed

variable {x : Write α} {f : α → Write β}

/-- A step that has nothing to do with the sink. -/
lemma of_sink_eq (hsink : ∀ w, (x w).2.sink = w.sink)
    (hx : ∀ w limit, x (w.limited limit) = ((x w).1, (x w).2.limited limit)) : Curtailed x where
  grows w := by rw [hsink w]
  curtails limit w hin := by
    rw [hx, hx]
    refine .same _ ?_
    rwa [written, hsink w]

lemma pure (a : α) : Curtailed (Pure.pure a : Write α) := of_sink_eq (fun _ => rfl) fun _ _ => rfl

lemma throw (e : WriteError) : Curtailed (MonadExcept.throw e : Write α) :=
  of_sink_eq (fun _ => rfl) fun _ _ => rfl

/-- Where the first step is refused, the second one is taken without a limit only, and what has been
received there beyond the limit stays. -/
lemma bind (hx : Curtailed x) (hf : ∀ a, Curtailed (f a)) : Curtailed (x >>= f) where
  grows w := by
    have hgrows := hx.grows w
    rw [Write.bind_apply]
    match hxw : x w with
    | (.ok a, w') =>
      rw [hxw] at hgrows
      exact hgrows.trans ((hf a).grows w')
    | (.error e, w') =>
      rw [hxw] at hgrows
      exact hgrows
  curtails limit w hin := by
    have hcurtails := hx.curtails limit w hin
    rw [Write.bind_apply, Write.bind_apply]
    generalize x (w.limited (some limit)) = out at hcurtails
    generalize x (w.limited none) = out' at hcurtails
    cases hcurtails with
    | same result hin' =>
      cases result with
      | ok a => exact (hf a).curtails limit _ hin'
      | error e => exact .same _ hin'
    | @refused result w₁ w' hin' hout hfront =>
      cases result with
      | ok a =>
        have hgrows := (hf a).grows w'
        exact .refused _ hin' (hout.trans_le (written_le_written hgrows)) (hfront.trans hgrows)
      | error e => exact .refused _ hin' hout hfront

/-- What is asked of the writer before a step must not depend on the limit. -/
lemma get_bind {f : Writer → Write α} (hf : ∀ w, Curtailed (f w))
    (hlimit : ∀ w limit, f (w.limited limit) = f w) :
    Curtailed (MonadState.get >>= f : Write α) where
  grows w := (hf w).grows w
  curtails limit w hin := by
    change Curtails .refused limit (f (w.limited (some limit)) (w.limited (some limit)))
      (f (w.limited none) (w.limited none))
    rw [hlimit, hlimit]
    exact (hf w).curtails limit w hin

lemma discard (hx : Curtailed x) : Curtailed (Functor.discard x) := hx.bind fun _ => .pure _

end Curtailed

lemma refuses_limited_iff (w : Writer) (limit : Nat) (bytes : Bytes) :
    (w.limited (some limit)).sink.refuses bytes = true ↔
      bytes ≠ [] ∧ limit < w.written + bytes.length := by
  change (!bytes.isEmpty && decide (limit < w.written + bytes.length)) = true ↔ _
  simp

/-- Bytes are refused if they go beyond the limit; a sink without a limit takes them. -/
lemma put_curtailed (bytes : Bytes) : Curtailed (put bytes) where
  grows w := by
    unfold put
    split
    · exact List.prefix_rfl
    · simp [Sink.append]
  curtails limit w hin := by
    let taken : Writer := { w with sink := w.sink.append bytes }
    have hnone : put bytes (w.limited none) = (.ok (), taken.limited none) := rfl
    have hsome : put bytes (w.limited (some limit)) =
        if (w.limited (some limit)).sink.refuses bytes = true
        then (.error .refused, w.limited (some limit))
        else (.ok (), taken.limited (some limit)) := rfl
    have hlength : taken.written = w.written + bytes.length := by
      simp [taken, written, Sink.append, ← Array.length_toList]
    rw [hnone, hsome]
    by_cases hrefuses : bytes ≠ [] ∧ limit < w.written + bytes.length
    · rw [if_pos ((refuses_limited_iff w limit bytes).2 hrefuses)]
      refine .refused _ hin (hrefuses.2.trans_eq hlength.symm) ?_
      simp [limited, taken, Sink.append]
    · rw [if_neg fun h => hrefuses ((refuses_limited_iff w limit bytes).1 h)]
      refine .same _ ?_
      rw [hlength]
      by_cases hempty : bytes = []
      · simpa [hempty] using hin
      · exact not_lt.1 fun hlt => hrefuses ⟨hempty, hlt⟩

lemma reserve_curtailed (size : Nat) : Curtailed (reserve size) := by
  refine .of_sink_eq (fun w => ?_) fun w limit => ?_
  · unfold reserve
    split <;> rfl
  · unfold reserve
    change (if UInt32.size ≤ w.offset + size then _ else _) = _
    split <;> rfl

lemma enter_curtailed (s : Bytes) : Curtailed (enter s) := by
  refine .of_sink_eq (fun w => ?_) fun w limit => ?_
  · unfold enter
    split <;> rfl
  · unfold enter
    change (if UInt32.size ≤ w.offset + (s.length + 1) then _ else _) = _
    split <;> rfl

lemma checkSize_curtailed : Curtailed checkSize := by
  refine .of_sink_eq (fun w => ?_) fun w limit => ?_
  · unfold checkSize
    split <;> rfl
  · unfold checkSize
    change (if w.written = w.offset then _ else _) = _
    split <;> rfl

lemma takePool_curtailed : Curtailed takePool := .of_sink_eq (fun _ => rfl) fun _ _ => rfl

lemma putFixed_curtailed (v : Single) : Curtailed (putFixed v) :=
  (put_curtailed _).bind fun _ => put_curtailed _

lemma putString_curtailed (s : Bytes) : Curtailed (putString s) :=
  (put_curtailed s).bind fun _ => put_curtailed _

lemma putStrings_curtailed (strings : List Bytes) : Curtailed (putStrings strings) := by
  induction strings with
  | nil => exact .pure ()
  | cons s rest ih => exact (putString_curtailed s).bind fun _ => ih

lemma beginSection_curtailed (magic : Bytes) (size : UInt32) (pooling : Bool) :
    Curtailed (beginSection magic size pooling) := by
  have hmagic : Curtailed (do modify fun w => { w with pooling }; put magic) :=
    (Curtailed.of_sink_eq (fun _ => rfl) fun _ _ => rfl).bind fun _ => put_curtailed magic
  refine (reserve_curtailed _).bind fun _ => ?_
  cases pooling with
  | false => exact hmagic
  | true => exact (reserve_curtailed _).bind fun _ => hmagic

/-- Whether a string has a place, and whether there is a table for it, has nothing to do with the sink. -/
lemma putReference_curtailed (s : Bytes) : Curtailed (putReference s) := by
  refine .get_bind (fun w => ?_) fun _ _ => rfl
  cases w.places[s]? with
  | some place => exact (put_curtailed _).bind fun _ => .pure place
  | none =>
    refine .get_bind (fun w => ?_) fun _ _ => rfl
    have henter : Curtailed (do
        let place ← enter s
        putU32 (UInt32.ofNat place)
        return place) :=
      (enter_curtailed s).bind fun place => (put_curtailed _).bind fun _ => .pure place
    cases w.pooling with
    | false => exact (Curtailed.throw _).bind fun _ => henter
    | true => exact henter

lemma putPool_curtailed : Curtailed putPool :=
  (put_curtailed _).bind fun _ => .get_bind
    (fun _ => (put_curtailed _).bind fun _ => takePool_curtailed.bind fun strings =>
      (putStrings_curtailed strings).bind fun _ => .of_sink_eq (fun _ => rfl) fun _ _ => rfl)
    fun _ _ => rfl

lemma endSection_curtailed : Curtailed endSection := by
  refine .get_bind (fun w => ?_) fun _ _ => rfl
  cases w.pooling with
  | false => exact checkSize_curtailed
  | true => exact putPool_curtailed.bind fun _ => checkSize_curtailed

lemma write_curtailed (d : Datum) : Curtailed d.write := by
  cases d with
  | pooled s => exact (putReference_curtailed s).bind fun _ => .pure _
  | fixed v => exact (putFixed_curtailed v).bind fun _ => .pure _
  | inline s => exact (putString_curtailed s).bind fun _ => .pure _
  | _ => exact (put_curtailed _).bind fun _ => .pure _

lemma putAll_curtailed (body : List Datum) : Curtailed (putAll body) := by
  induction body with
  | nil => exact .pure ()
  | cons d rest ih => exact (write_curtailed d).discard.bind fun _ => ih

lemma putSection_curtailed (plan : SectionPlan) : Curtailed (putSection plan) := by
  refine (beginSection_curtailed _ _ _).bind fun _ => (putAll_curtailed _).bind fun _ => ?_
  cases plan.excess with
  | none => exact endSection_curtailed.bind fun _ => .pure _
  | some excess => exact .pure _

/-- Sections only add to what has been received, whether or not all of them can be written. -/
lemma prefix_emit (plans : List SectionPlan) (w : Writer) :
    w.sink.received.toList <+: (emit plans w).2.sink.received.toList := by
  induction plans generalizing w with
  | nil => exact List.prefix_rfl
  | cons plan rest ih =>
    have hgrows := (putSection_curtailed plan).grows w
    unfold emit
    split <;> rename_i hput <;> rw [hput] at hgrows
    · exact hgrows
    · exact hgrows
    · exact hgrows.trans (ih _)

/-- A limit cuts sections off where it cuts off the first that does not go on as without it. -/
theorem emit_curtails (plans : List SectionPlan) {limit : Nat} {w : Writer} (hin : w.written ≤ limit) :
    Curtails (.write .refused) limit (emit plans (w.limited (some limit)))
      (emit plans (w.limited none)) := by
  induction plans generalizing w with
  | nil => exact .same _ hin
  | cons plan rest ih =>
    have hcurtails := (putSection_curtailed plan).curtails limit w hin
    rw [emit, emit]
    generalize putSection plan (w.limited (some limit)) = out at hcurtails
    generalize putSection plan (w.limited none) = out' at hcurtails
    cases hcurtails with
    | same result hin' =>
      match result with
      | .error cause => exact .same _ hin'
      | .ok (some excess) => exact .same _ hin'
      | .ok none => exact ih hin'
    | @refused result w₁ w' hin' hout hfront =>
      match result with
      | .error cause => exact .refused _ hin' hout hfront
      | .ok (some excess) => exact .refused _ hin' hout hfront
      | .ok none =>
        have hgrows := prefix_emit rest w'
        exact .refused _ hin' (hout.trans_le (written_le_written hgrows)) (hfront.trans hgrows)

end Writer

/-- What a limit of the sink does to writing a database. What the sink has received is within the limit
and a beginning of what it receives without one. If the limit is large enough for all of that, writing
goes as it goes without a limit, well or wrong; if it is not, writing fails because the sink takes no
more. -/
structure CutOff (write : Option Nat → Except CompileError Unit × Array UInt8) : Prop where
  within : ∀ limit, (write (some limit)).2.size ≤ limit
  received : ∀ limit, (write (some limit)).2.toList <+: (write none).2.toList
  enough : ∀ limit, (write none).2.size ≤ limit → write (some limit) = write none
  short : ∀ limit, limit < (write none).2.size →
    ∃ e, (write (some limit)).1 = .error e ∧ e.fault = .output .refused ∧ e.fault.kind = .output

/-- Sections that are reported to have been written or not to have been. -/
lemma assemble_eq (limit : Option Nat) (image : List SectionPlan) :
    assemble limit image = ((Writer.emit image (Writer.empty limit)).1.mapError CompileError.ofEmit,
      (Writer.emit image (Writer.empty limit)).2.sink.received) := by
  rw [assemble, Writer.run]
  match Writer.emit image (Writer.empty limit) with
  | (.ok (), w) => rfl
  | (.error cause, w) => rfl

lemma cutOff_assemble (image : List SectionPlan) : CutOff fun limit => assemble limit image := by
  have hends (limit : Nat) :
      (assemble (some limit) image).2.size ≤ limit ∧
        (assemble (some limit) image).2.toList <+: (assemble none image).2.toList ∧
        ((assemble none image).2.size ≤ limit ∧ assemble (some limit) image = assemble none image ∨
          limit < (assemble none image).2.size ∧
            (assemble (some limit) image).1 = .error (.ofEmit (.write .refused))) := by
    have hin : (Writer.empty none).written ≤ limit := Nat.zero_le limit
    have hcurtails : Writer.Curtails (.write .refused) limit
        (Writer.emit image (Writer.empty (some limit))) (Writer.emit image (Writer.empty none)) :=
      Writer.emit_curtails image hin
    rw [assemble_eq, assemble_eq]
    generalize Writer.emit image (Writer.empty (some limit)) = out at hcurtails
    generalize Writer.emit image (Writer.empty none) = out' at hcurtails
    cases hcurtails with
    | same result hin => exact ⟨hin, List.prefix_rfl, .inl ⟨hin, rfl⟩⟩
    | refused result hin hout hfront => exact ⟨hin, hfront, .inr ⟨hout, rfl⟩⟩
  refine ⟨fun limit => (hends limit).1, fun limit => (hends limit).2.1, fun limit hle => ?_,
    fun limit hlt => ?_⟩
  · rcases (hends limit).2.2 with ⟨-, hsame⟩ | ⟨hlt, -⟩
    · exact hsame
    · exact absurd hlt hle.not_gt
  · rcases (hends limit).2.2 with ⟨hle, -⟩ | ⟨-, herror⟩
    · exact absurd hlt hle.not_gt
    · exact ⟨_, herror, rfl, rfl⟩

/-- A sink with a limit receives a beginning of every database, of either kind and whatever is defined:
all that a sink without a limit receives if that is within the limit, and else writing fails. -/
theorem cutOff_write :
    (∀ d : Language.Definition, CutOff fun limit => d.write limit) ∧
      ∀ d : Voice.Definition, CutOff fun limit => d.write limit :=
  ⟨fun d => cutOff_assemble d.image, fun d => cutOff_assemble d.image⟩

end LetterToSound
