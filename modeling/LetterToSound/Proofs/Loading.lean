import Mathlib
import LetterToSound.Proofs.Language.Tables
import LetterToSound.Voice.Database

/-!
# Loading any bytes

Whatever bytes are given, loading a database goes through them once: each section that is read moves on,
none leads back or out of the data, and after at most as many sections as there are bytes there is a
database or a fault. The units of an accepted voice are looked up in its table of units only.
-/

namespace LetterToSound

namespace Voice.Database

variable {db db' : Database}

lemma forward_readHeader : readHeader.Forward :=
  (Read.Forward.header _ _).bind fun _ => .bind .text fun _ => .bind .text fun _ =>
    .bind .text fun _ => .bind .text fun _ => .bind .text fun _ => .bind .position fun _ =>
    .bind .u8 fun _ => .bind (.lift _) fun _ => .bind .fixed fun _ => .bind .u16 fun _ =>
    .bind .u8 fun _ => .bind .text fun _ => .pure _

/-- A voice is accepted if every run lies within its units, and then it stays as it is. -/
lemma checkRuns_eq_ok_iff : db.checkRuns = .ok db' ↔
    db' = db ∧ ∀ r ∈ db.runs, r.start.toNat + r.count.toNat ≤ db.units.length := by
  simp only [checkRuns]
  split
  · rename_i i hfind
    refine ⟨nofun, fun h => ?_⟩
    obtain ⟨hi, hlt, -⟩ := List.findIdx?_eq_some_iff_getElem.mp hfind
    have hle := h.2 _ (List.getElem_mem hi)
    have hgt := of_decide_eq_true hlt
    omega
  · rename_i hnone
    have hall : ∀ r ∈ db.runs, r.start.toNat + r.count.toNat ≤ db.units.length := by
      simpa using hnone
    refine ⟨fun h => ⟨?_, hall⟩, fun h => by rw [h.1]⟩
    cases h
    rfl

lemma runs_of_load {data : Array UInt8} (h : load data = .ok db) :
    ∀ r ∈ db.runs, r.start.toNat + r.count.toNat ≤ db.units.length := by
  unfold load at h
  split at h
  · cases h
  · obtain ⟨sections, -, hcheck⟩ := Outcome.exists_of_bind_eq_ok h
    obtain ⟨rfl, hruns⟩ := checkRuns_eq_ok_iff.mp hcheck
    exact hruns

/-- What is looked up for two phonemes is a whole run within the table of units; or there is no run for
them and nothing is found. -/
def LooksUpWithin (db : Database) (first second : Phoneme) : Prop :=
  (∃ r ∈ db.runs, r.first.agrees first lookupMask = true ∧
      r.second.agrees second lookupMask = true ∧
      r.start.toNat + r.count.toNat ≤ db.units.length ∧
      (db.unitsOf first second).length = r.count.toNat ∧
      ∀ i (hi : i < (db.unitsOf first second).length),
        db.units[r.start.toNat + i]? = some (db.unitsOf first second)[i]) ∨
    db.unitsOf first second = [] ∧ ∀ r ∈ db.runs,
      ¬(r.first.agrees first lookupMask = true ∧ r.second.agrees second lookupMask = true)

lemma looksUpWithin_of_load {data : Array UInt8} (h : load data = .ok db) (first second : Phoneme) :
    db.LooksUpWithin first second := by
  have hunits := unitsOf.eq_def db first second
  split at hunits
  · rename_i r hfind
    have hmem := List.mem_of_find?_eq_some hfind
    have hle := runs_of_load h r hmem
    have hfor := List.find?_some hfind
    rw [Bool.and_eq_true] at hfor
    have hlength : (db.unitsOf first second).length = r.count.toNat := by
      rw [hunits, List.length_take, List.length_drop]
      omega
    refine .inl ⟨r, hmem, hfor.1, hfor.2, hle, hlength, fun i hi => ?_⟩
    simp only [hunits, List.getElem_take, List.getElem_drop]
    exact List.getElem?_eq_getElem (by omega)
  · rename_i hnone
    refine .inr ⟨hunits, fun r hr hfor => ?_⟩
    have hnot := List.find?_eq_none.mp hnone r hr
    rw [hfor.1, hfor.2] at hnot
    exact hnot rfl

end Voice.Database

/-- Both kinds of databases are loaded by a walk that makes progress and ends, whatever the bytes are;
and whenever a voice is accepted, what is looked up for two phonemes lies inside its table of units. -/
theorem progresses_load (data : Array UInt8) :
    Walk.Progresses Language.Database.readHeader Language.Database.readBody
        (fun header sections => .ok ⟨data, header.1, header.2, sections⟩) data
        (Language.Database.load data) ∧
      Walk.Progresses Voice.Database.readHeader Voice.Database.readBody
        (fun header sections => Voice.Database.checkRuns ⟨header, sections⟩) data
        (Voice.Database.load data) ∧
      ∀ db, Voice.Database.load data = .ok db →
        ∀ first second, db.LooksUpWithin first second := by
  refine ⟨?_, ?_, fun db h => Voice.Database.looksUpWithin_of_load h⟩
  · refine Walk.progresses_of_forward .strings Language.Database.forward_readHeader
      Language.Database.forward_readBody rfl ?_
    rw [Language.Database.load]
    match Language.Database.readHeader (Cursor.start data) with
    | (.error e, _) => rfl
    | (.ok header, c) => rfl
  · refine Walk.progresses_of_forward .strings Voice.Database.forward_readHeader
      Voice.Database.forward_readBody rfl ?_
    rw [Voice.Database.load]
    match Voice.Database.readHeader (Cursor.start data) with
    | (.error e, _) => rfl
    | (.ok header, c) => rfl

end LetterToSound
