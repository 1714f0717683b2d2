import Mathlib
import LetterToSound.Compile
import LetterToSound.Proofs.Container.Emission

/-!
# Writing succeeds

A sink without a limit takes all sections whose plans say their sizes, as long as the whole fits in
32 bits. Nothing else can go wrong: the offset is the sum of the sizes, so a check can only fail where
a plan is wrong, and strings are asked for only where there is a table for them.
-/

namespace LetterToSound

namespace SectionPlan

/-- The room that a section takes by its plan: the size that the plan says, and the string table. -/
def declared (plan : SectionPlan) : Nat :=
  plan.size.toNat +
    if plan.pooling then Layout.stringTableHeaderSize + (Pool.bytes plan.strings).length else 0

/-- The strings of a section end where its plan says that it does. -/
lemma poolStart_add_length (plan : SectionPlan) (hpooling : plan.pooling = true ∨ plan.strings = [])
    (start : Nat) :
    plan.poolStart start + (Pool.bytes plan.strings).length = start + plan.declared := by
  rw [poolStart, declared]
  rcases hpooling with hp | hp
  · simp only [hp, if_true]
    omega
  · simp [hp, Nat.add_assoc]

/-- A section whose plan says its size takes just the room that its plan says. -/
lemma Exact.length_bytes {plan : SectionPlan} (h : plan.Exact) (start : Nat) :
    (plan.bytes start).length = plan.declared := by
  rw [bytes, declared, ← h.size, List.length_append, List.length_append, length_values,
    Nat.add_assoc]
  split
  · rw [length_stringTable]
  · rfl

end SectionPlan

namespace Write

variable {α β : Type} {w w' : Writer}

lemma bind_eq_of_ok {x : Write α} {a : α} (f : α → Write β) (h : x w = (.ok a, w')) :
    (x >>= f) w = f a w' := by
  rw [bind_apply, h]

end Write

namespace Writer

variable {w : Writer}

/-- A step that succeeds on a sink without a limit, and leaves it without one. -/
def Succeeds {α : Type} (x : Write α) (w : Writer) : Prop :=
  ∃ a w', x w = (.ok a, w') ∧ w'.sink.limit = none

namespace Succeeds

variable {α β : Type} {x : Write α} {f : α → Write β}

lemma pure (a : α) (hw : w.sink.limit = none) : Succeeds (Pure.pure a : Write α) w := ⟨a, w, rfl, hw⟩

/-- Steps succeed one after the other if each succeeds where the one before it may have ended. -/
lemma bind (h : Succeeds x w)
    (hf : ∀ a w', x w = (.ok a, w') → w'.sink.limit = none → Succeeds (f a) w') :
    Succeeds (x >>= f) w := by
  obtain ⟨a, w₁, hx, hlimit⟩ := h
  obtain ⟨b, w₂, hb, hlimit'⟩ := hf a w₁ hx hlimit
  exact ⟨b, w₂, by rw [Write.bind_eq_of_ok f hx, hb], hlimit'⟩

lemma get (hw : w.sink.limit = none) : Succeeds (MonadState.get : Write Writer) w := ⟨w, w, rfl, hw⟩

end Succeeds

lemma put_succeeds (bytes : Bytes) (hw : w.sink.limit = none) : Succeeds (put bytes) w :=
  ⟨(), { w with sink := w.sink.append bytes }, by simp [put, Sink.refuses, hw], hw⟩

lemma reserve_succeeds {size : Nat} (hw : w.sink.limit = none)
    (hfits : w.offset + size < UInt32.size) : Succeeds (reserve size) w :=
  ⟨(), { w with offset := w.offset + size }, by rw [reserve, if_neg (by omega)], hw⟩

lemma putFixed_succeeds (v : Single) (hw : w.sink.limit = none) : Succeeds (putFixed v) w :=
  (put_succeeds _ hw).bind fun _ _ _ hlimit => put_succeeds _ hlimit

lemma putString_succeeds (s : Bytes) (hw : w.sink.limit = none) : Succeeds (putString s) w :=
  (put_succeeds _ hw).bind fun _ _ _ hlimit => put_succeeds _ hlimit

lemma putStrings_succeeds (strings : List Bytes) (hw : w.sink.limit = none) :
    Succeeds (putStrings strings) w := by
  induction strings generalizing w with
  | nil => exact .pure () hw
  | cons s rest ih => exact (putString_succeeds s hw).bind fun _ _ _ hlimit => ih hlimit

/-- A string can be entered if the table still fits in 32 bits with it. -/
lemma enter_succeeds {start : Nat} {strings : List Bytes} {s : Bytes} (hlimit : w.sink.limit = none)
    (hw : Pools start strings w)
    (hfits : start + (Pool.bytes (strings ++ [s])).length < UInt32.size) : Succeeds (enter s) w := by
  have hle : ¬UInt32.size ≤ w.offset + (s.length + 1) := by
    rw [hw.offset]
    simp only [Pool.bytes_append, Pool.bytes_cons, Pool.bytes_nil, List.length_append,
      List.length_cons, List.length_nil] at hfits
    omega
  rw [Succeeds, enter, if_neg hle]
  exact ⟨_, _, rfl, hlimit⟩

/-- A reference can be written if its string stands in the table or can be entered there. -/
lemma putReference_succeeds {start : Nat} {strings : List Bytes} {s : Bytes}
    (hlimit : w.sink.limit = none) (hw : Pools start strings w)
    (hpooling : w.pooling = true ∨ s ∈ strings)
    (hfits : start + (Pool.bytes (Pool.enter strings s)).length < UInt32.size) :
    Succeeds (putReference s) w := by
  refine (Succeeds.get hlimit).bind fun w₁ w₂ hget _ => ?_
  cases hget
  rw [hw.places s]
  by_cases hs : s ∈ strings
  · rw [if_pos hs]
    exact (put_succeeds _ hlimit).bind fun _ _ _ hlimit => .pure _ hlimit
  · rw [if_neg hs]
    refine (Succeeds.get hlimit).bind fun w₁ w₂ hget _ => ?_
    cases hget
    rw [hpooling.resolve_right hs]
    rw [Pool.enter_of_not_mem hs] at hfits
    exact (enter_succeeds hlimit hw hfits).bind fun _ _ _ hlimit =>
      (put_succeeds _ hlimit).bind fun _ _ _ hlimit => .pure _ hlimit

lemma write_succeeds {start : Nat} {strings : List Bytes} {d : Datum}
    (hlimit : w.sink.limit = none) (hw : Pools start strings w)
    (hpooling : w.pooling = true ∨ d.enter strings = strings)
    (hfits : start + (Pool.bytes (d.enter strings)).length < UInt32.size) :
    Succeeds d.write w := by
  cases d with
  | pooled s =>
    have hmem : w.pooling = true ∨ s ∈ strings := by
      refine hpooling.imp_right fun hsame => ?_
      rw [← hsame]
      exact Pool.mem_enter_self strings s
    exact (putReference_succeeds hlimit hw hmem hfits).bind fun _ _ _ hlimit => .pure _ hlimit
  | _ =>
    refine Succeeds.bind ?_ fun _ _ _ hlimit => .pure _ hlimit
    first
    | exact putFixed_succeeds _ hlimit
    | exact putString_succeeds _ hlimit
    | exact put_succeeds _ hlimit

lemma length_poolBytes_le {strings more : List Bytes} (h : strings <+: more) :
    (Pool.bytes strings).length ≤ (Pool.bytes more).length := by
  obtain ⟨rest, rfl⟩ := h
  rw [Pool.bytes_append, List.length_append]
  omega

/-- Values that enter no new string have a first one that does not. -/
lemma enter_eq_of_foldl_eq {strings : List Bytes} {d : Datum} {rest : List Datum}
    (h : rest.foldl Datum.enter (d.enter strings) = strings) : d.enter strings = strings := by
  have hprefix := Datum.prefix_foldl_enter (d.enter strings) rest
  rw [h] at hprefix
  exact hprefix.eq_of_length_le (Datum.prefix_enter strings d).length_le

/-- Values can be written if the table fits in 32 bits with all their strings. -/
lemma putAll_succeeds {start : Nat} {strings : List Bytes} {body : List Datum}
    (hlimit : w.sink.limit = none) (hw : Pools start strings w)
    (hpooling : w.pooling = true ∨ body.foldl Datum.enter strings = strings)
    (hfits : start + (Pool.bytes (body.foldl Datum.enter strings)).length < UInt32.size) :
    Succeeds (putAll body) w := by
  induction body generalizing w strings with
  | nil => exact .pure () hlimit
  | cons d rest ih =>
    rw [List.foldl_cons] at hpooling hfits
    have hprefix := Datum.prefix_foldl_enter (d.enter strings) rest
    have hstep (h : rest.foldl Datum.enter (d.enter strings) = strings) := enter_eq_of_foldl_eq h
    have hle := length_poolBytes_le hprefix
    have hwrite := write_succeeds hlimit hw (hpooling.imp_right hstep) (by omega)
    refine Succeeds.bind (hwrite.bind fun _ _ _ hlimit => .pure _ hlimit) fun _ w₂ h hlimit => ?_
    obtain ⟨_, w₁, hput, h⟩ := Write.exists_of_bind_eq_ok h
    cases h
    obtain ⟨hw₁, -, hsame, -⟩ := write_ok hw hput
    refine ih hlimit hw₁ ?_ hfits
    rw [hsame]
    exact hpooling.imp_right fun hall => hall.trans (hstep hall).symm

lemma beginSection_succeeds (magic : Bytes) {size : UInt32} {pooling : Bool}
    (hlimit : w.sink.limit = none) (hfits : w.offset + size.toNat +
      (if pooling then Layout.stringTableHeaderSize else 0) < UInt32.size) :
    Succeeds (beginSection magic size pooling) w := by
  have hmodify (w' : Writer) (hw' : w'.sink.limit = none) :
      Succeeds (do modify fun w => { w with pooling }; put magic) w' :=
    Succeeds.bind ⟨(), { w' with pooling }, rfl, hw'⟩ fun _ _ _ hlimit => put_succeeds _ hlimit
  refine (reserve_succeeds hlimit (by omega)).bind fun _ w₁ hreserve hlimit => ?_
  obtain ⟨rfl, -⟩ := reserve_ok hreserve
  cases pooling with
  | false => exact hmodify _ hlimit
  | true =>
    exact (reserve_succeeds hlimit (by simpa using hfits)).bind fun _ _ _ hlimit =>
      hmodify _ hlimit

lemma putPool_succeeds (hlimit : w.sink.limit = none) : Succeeds putPool w := by
  refine (put_succeeds _ hlimit).bind fun _ w₁ _ hlimit => ?_
  refine (Succeeds.get hlimit).bind fun _ _ _ hlimit => ?_
  refine (put_succeeds _ hlimit).bind fun _ w₂ _ hlimit => ?_
  refine Succeeds.bind ⟨_, _, rfl, hlimit⟩ fun strings _ _ hlimit => ?_
  exact (putStrings_succeeds strings hlimit).bind fun _ _ _ hlimit => ⟨(), _, rfl, hlimit⟩

/-- A section can be ended if what has been written and its table end where the offset is. -/
lemma endSection_succeeds {start : Nat} {strings : List Bytes} (hlimit : w.sink.limit = none)
    (hw : Pools start strings w) (hwritten : w.offset = w.written +
      if w.pooling then (SectionPlan.stringTable start strings).length else 0) :
    Succeeds endSection w := by
  refine (Succeeds.get hlimit).bind fun _ _ hget _ => ?_
  cases hget
  have hcheck (w' : Writer) (hw' : w'.sink.limit = none) (heq : w'.written = w'.offset) :
      Succeeds checkSize w' := ⟨(), w', by rw [checkSize, if_pos heq], hw'⟩
  cases hpooling : w.pooling with
  | false =>
    rw [hpooling] at hwritten
    exact hcheck w hlimit (by simpa using hwritten.symm)
  | true =>
    rw [hpooling, if_pos rfl] at hwritten
    refine (putPool_succeeds hlimit).bind fun _ w₁ hput hlimit => hcheck w₁ hlimit ?_
    obtain ⟨hreceived, hoffset, -, -⟩ := putPool_ok hw hput
    have hlength := congrArg List.length hreceived
    rw [List.length_append, Array.length_toList, Array.length_toList] at hlength
    rw [hoffset, hwritten]
    exact hlength

/-- A section can be begun and its values written if the size that its plan says and its string table
fit in 32 bits, whether or not the plan says the size of the values. -/
lemma body_succeeds {plan : SectionPlan} (hlimit : w.sink.limit = none) (hw : w.Ready)
    (hpooling : plan.pooling = true ∨ plan.strings = [])
    (hfits : w.written + plan.declared < UInt32.size) :
    ∃ w₁ w₂, beginSection plan.magic plan.size plan.pooling w = (.ok (), w₁) ∧
      putAll plan.body w₁ = (.ok (), w₂) ∧ w₂.sink.limit = none := by
  have hpool := plan.poolStart_add_length hpooling w.written
  have hstart : plan.poolStart w.written < UInt32.size := by omega
  obtain ⟨_, w₁, hbegin, hlimit₁⟩ := beginSection_succeeds plan.magic hlimit (hw.written ▸ hstart)
  obtain ⟨-, -, -, hsame, -⟩ := beginSection_ok hbegin
  obtain ⟨_, w₂, hbody, hlimit₂⟩ := putAll_succeeds hlimit₁ (pools_of_beginSection hw hbegin)
    (hsame ▸ hpooling) (by
      rw [← SectionPlan.strings]
      omega)
  exact ⟨w₁, w₂, hbegin, hbody, hlimit₂⟩

section Body

variable {plan : SectionPlan} {w₁ w₂ : Writer} {u v : Unit}

/-- The values of a section that has been begun stand behind its magic. -/
lemma written_of_body (hw : w.Ready)
    (hbegin : beginSection plan.magic plan.size plan.pooling w = (.ok u, w₁))
    (hbody : putAll plan.body w₁ = (.ok v, w₂)) :
    w₂.written = w.written + (plan.magic.length + (plan.body.map Datum.size).sum) := by
  obtain ⟨hreceived, -⟩ := beginSection_ok hbegin
  obtain ⟨-, hreceived', -⟩ := putAll_ok (pools_of_beginSection hw hbegin) hbody
  rw [written, written, ← Array.length_toList, ← Array.length_toList, hreceived', hreceived]
  simp [List.length_flatMap]

/-- Behind the values of a section the offset has been moved by the size that its plan says and by its
string table, whatever has been written. -/
lemma offset_of_body (hw : w.Ready) (hpooling : plan.pooling = true ∨ plan.strings = [])
    (hbegin : beginSection plan.magic plan.size plan.pooling w = (.ok u, w₁))
    (hbody : putAll plan.body w₁ = (.ok v, w₂)) :
    w₂.offset = w.written + plan.size.toNat + if w₂.pooling then
      (SectionPlan.stringTable (plan.poolStart w.written) plan.strings).length else 0 := by
  obtain ⟨-, -, -, hsame, -⟩ := beginSection_ok hbegin
  obtain ⟨hw₂, -, hsame', -⟩ := putAll_ok (pools_of_beginSection hw hbegin) hbody
  have hpool := plan.poolStart_add_length hpooling w.written
  rw [hw₂.offset, ← SectionPlan.strings, hpool, hsame', hsame, SectionPlan.declared,
    SectionPlan.length_stringTable, Nat.add_assoc]

end Body

/-- A section whose plan says its size is written if the sink takes everything, its strings have a
table and its end fits in 32 bits. -/
theorem putSection_succeeds {plan : SectionPlan} (hlimit : w.sink.limit = none) (hw : w.Ready)
    (hexact : plan.Exact) (hpooling : plan.pooling = true ∨ plan.strings = [])
    (hfits : w.written + (plan.bytes w.written).length < UInt32.size) :
    ∃ w', putSection plan w = (.ok none, w') ∧ w'.sink.limit = none := by
  rw [hexact.length_bytes] at hfits
  obtain ⟨w₁, w₂, hbegin, hbody, hlimit₂⟩ := body_succeeds hlimit hw hpooling hfits
  have hw₂ := (putAll_ok (pools_of_beginSection hw hbegin) hbody).1
  have hend : w₂.offset = w₂.written + if w₂.pooling then
      (SectionPlan.stringTable (plan.poolStart w.written) plan.strings).length else 0 := by
    rw [offset_of_body hw hpooling hbegin hbody, written_of_body hw hbegin hbody, hexact.size]
  obtain ⟨_, w₃, hend, hlimit₃⟩ := endSection_succeeds hlimit₂ hw₂ hend
  refine ⟨w₃, ?_, hlimit₃⟩
  rw [putSection, Write.bind_eq_of_ok _ hbegin, Write.bind_eq_of_ok _ hbody, hexact.excess]
  exact Write.bind_eq_of_ok _ hend

/-- Sections whose plans say their sizes are written one behind the other. -/
theorem emit_succeeds {plans : List SectionPlan} (hlimit : w.sink.limit = none) (hw : w.Ready)
    (hexact : ∀ plan ∈ plans, plan.Exact)
    (hpooling : ∀ plan ∈ plans, plan.pooling = true ∨ plan.strings = [])
    (hfits : w.written + (SectionPlan.allBytes w.written plans).length < UInt32.size) :
    ∃ w', emit plans w = (.ok (), w') ∧ w'.sink.limit = none := by
  induction plans generalizing w with
  | nil => exact ⟨w, rfl, hlimit⟩
  | cons plan rest ih =>
    obtain ⟨hexact, hrest⟩ := List.forall_mem_cons.mp hexact
    obtain ⟨hpooling, hpoolings⟩ := List.forall_mem_cons.mp hpooling
    rw [SectionPlan.allBytes, List.length_append] at hfits
    obtain ⟨w₁, hput, hlimit₁⟩ := putSection_succeeds hlimit hw hexact hpooling (by omega)
    obtain ⟨-, hw₁, hreceived⟩ := putSection_ok hw hput
    have hwritten : w₁.written = w.written + (plan.bytes w.written).length := by
      simpa [written] using congrArg List.length hreceived
    obtain ⟨w₂, hemit, hlimit₂⟩ := ih hlimit₁ hw₁ hrest hpoolings (by rw [hwritten]; omega)
    exact ⟨w₂, by rw [emit, hput]; exact hemit, hlimit₂⟩

/-- A sink without a limit receives all sections whose plans say their sizes, if the whole fits in
32 bits. -/
theorem run_succeeds {plans : List SectionPlan} (hexact : ∀ plan ∈ plans, plan.Exact)
    (hpooling : ∀ plan ∈ plans, plan.pooling = true ∨ plan.strings = [])
    (hfits : (SectionPlan.allBytes 0 plans).length < UInt32.size) :
    ∃ data, run none plans = (.ok (), data) := by
  have hfits' : (empty none).written +
      (SectionPlan.allBytes (empty none).written plans).length < UInt32.size := by
    simpa [empty, Sink.empty, written] using hfits
  obtain ⟨w, hemit, -⟩ := emit_succeeds rfl (ready_empty none) hexact hpooling hfits'
  exact ⟨w.sink.received, by rw [run, hemit]⟩

end Writer

/-- Sections have been written where writing them is reported to have gone well. -/
lemma run_of_assemble {limit : Option Nat} {image : List SectionPlan} {data : Array UInt8}
    (h : assemble limit image = (.ok (), data)) : Writer.run limit image = (.ok (), data) := by
  unfold assemble at h
  split at h
  · rename_i hrun
    cases h
    exact hrun
  · cases h

/-- A database is what a sink without a limit has received of its sections. -/
lemma database_eq_ok_iff {image : List SectionPlan} {data : Array UInt8} :
    database image = .ok data ↔ assemble none image = (.ok (), data) := by
  unfold database
  split
  · rename_i hassemble
    rw [hassemble, Except.ok.injEq, Prod.mk.injEq]
    exact ⟨fun h => ⟨rfl, h⟩, fun h => h.2⟩
  · rename_i hassemble
    rw [hassemble]
    exact ⟨(fun h => by cases h), (fun h => by cases h)⟩

/-- Sections that fit into 32 bits are written, if their headers say their sizes. -/
lemma exists_assemble {image : List SectionPlan} (hexact : ∀ plan ∈ image, plan.Exact)
    (hpooling : ∀ plan ∈ image, plan.pooling = true ∨ plan.strings = [])
    (hfits : (SectionPlan.allBytes 0 image).length < UInt32.size) :
    ∃ data, assemble none image = (.ok (), data) := by
  obtain ⟨data, hrun⟩ := Writer.run_succeeds hexact hpooling hfits
  exact ⟨data, by rw [assemble, hrun]⟩

end LetterToSound
