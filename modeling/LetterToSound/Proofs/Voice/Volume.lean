import Mathlib
import LetterToSound.Proofs.Container.Evidence
import LetterToSound.Proofs.Loading
import LetterToSound.Proofs.Number.FixedPoint
import LetterToSound.Proofs.Voice.Reload

/-!
# The volume of a voice

The volume of a voice is stored in fixed point. What a loaded voice says of it is what its two bytes
stand for, whatever else the header holds, so it is what fixed point keeps of the volume in the source.
-/

namespace LetterToSound.Voice

open Read (exists_of_bind)

namespace Database

/-- The bytes of the header before the volume: magic, witness, five references and the gender. -/
def volumeOffset : Nat := Layout.voiceMagic.length + 2 + 5 * Layout.stringReferenceSize + 1

/-- A header that can be read says as its volume what two bytes at their place stand for. -/
lemma volumeScale_of_readHeader {c c' : Cursor} {header : Header} {whole fraction : UInt8}
    {ys : Bytes} (h : readHeader c = (.ok header, c'))
    (hrest : (c.skip volumeOffset).rest = [whole, fraction] ++ ys) :
    header.volumeScale = FixedPoint.decode whole fraction := by
  obtain ⟨_, c₁, hheader, h⟩ := exists_of_bind h
  obtain rfl := Read.header_ok hheader
  obtain ⟨_, c₂, hid, h⟩ := exists_of_bind h
  obtain rfl := Read.text_ok hid
  obtain ⟨_, c₃, hname, h⟩ := exists_of_bind h
  obtain rfl := Read.text_ok hname
  obtain ⟨_, c₄, hsynthesizer, h⟩ := exists_of_bind h
  obtain rfl := Read.text_ok hsynthesizer
  obtain ⟨_, c₅, hauthor, h⟩ := exists_of_bind h
  obtain rfl := Read.text_ok hauthor
  obtain ⟨_, c₆, halphabet, h⟩ := exists_of_bind h
  obtain rfl := Read.text_ok halphabet
  obtain ⟨_, c₇, hposition, h⟩ := exists_of_bind h
  cases hposition
  obtain ⟨_, c₈, hbyte, h⟩ := exists_of_bind h
  obtain ⟨rfl, -⟩ := Read.u8_ok hbyte
  obtain ⟨_, c₉, hgender, h⟩ := exists_of_bind h
  obtain rfl : c₉ = _ := (congrArg Prod.snd hgender).symm
  simp only [Cursor.skip_skip] at h
  have hfixed : Read.fixed (c.skip volumeOffset) = (.ok (FixedPoint.decode whole fraction), _) :=
    Read.Takes.fixed whole fraction _ ys rfl hrest
  obtain ⟨_, c₁₀, hscale, h⟩ := exists_of_bind h
  obtain ⟨hvolume, -⟩ := Prod.mk.inj (hscale.symm.trans hfixed)
  obtain ⟨_, c₁₀, -, h⟩ := exists_of_bind h
  obtain ⟨_, c₁₁, -, h⟩ := exists_of_bind h
  obtain ⟨_, c₁₂, -, h⟩ := exists_of_bind h
  cases h
  exact Except.ok.inj hvolume

end Database

/-- A database that a voice is written as says as its volume what the two bytes of it stand for. -/
lemma Definition.volumeScale_of_write {d : Definition} {limit : Option Nat} {data : Array UInt8}
    {db : Database} (hwrite : d.write limit = (.ok (), data)) (hload : Database.load data = .ok db) :
    db.header.volumeScale =
      FixedPoint.decode (FixedPoint.encode d.volumeScale).1 (FixedPoint.encode d.volumeScale).2 := by
  obtain ⟨hdata, -, -⟩ := Writer.run_ok (run_of_assemble hwrite)
  unfold Database.load at hload
  split at hload
  · cases hload
  rename_i header c hheader
  obtain ⟨sections, -, hcheck⟩ := Outcome.exists_of_bind_eq_ok hload
  obtain ⟨rfl, -⟩ := Database.checkRuns_eq_ok_iff.1 hcheck
  let place : Bytes → Nat := Pool.place ((Image.header d).poolStart 0) (Image.header d).strings
  let before : List Datum := [.u16 Layout.byteOrderWitness, .pooled d.id, .pooled d.name,
    .pooled d.synthesizer, .pooled d.author, .pooled d.alphabet, .u8 d.gender.byte]
  have hbefore : (Layout.voiceMagic ++ before.flatMap (Datum.bytes place)).length =
      Database.volumeOffset := by
    simp only [before, List.length_append, List.flatMap_cons, List.flatMap_nil, List.length_nil,
      Datum.length_bytes, Datum.size, Database.volumeOffset]
    omega
  have hbody : (Image.header d).body = before ++ .fixed d.volumeScale ::
      [.u16 d.frequency, .u8 d.channels, .pooled d.sampleFormat] := rfl
  have hrest : ∃ ys, (Cursor.start data).rest =
      (Layout.voiceMagic ++ before.flatMap (Datum.bytes place)) ++
        ([(FixedPoint.encode d.volumeScale).1, (FixedPoint.encode d.volumeScale).2] ++ ys) := by
    have hstart : (Cursor.start data).rest =
        (Image.header d).bytes 0 ++ SectionPlan.allBytes _ d.image.tail := hdata
    rw [hstart, SectionPlan.bytes, SectionPlan.values, hbody, List.flatMap_append, List.flatMap_cons]
    simp only [List.append_assoc]
    exact ⟨_, rfl⟩
  obtain ⟨ys, hrest⟩ := hrest
  have hbehind := Cursor.rest_skip hrest
  rw [hbefore] at hbehind
  exact Database.volumeScale_of_readHeader hheader hbehind

lemma volumeScale_of_compile {source : Bytes} {d : Definition} {data : Array UInt8} {db : Database}
    (hparse : parse source = .ok d) (hcompile : compile source = .ok data)
    (hload : Database.load data = .ok db) : db.header.volumeScale =
      FixedPoint.decode (FixedPoint.encode d.volumeScale).1 (FixedPoint.encode d.volumeScale).2 := by
  obtain ⟨d', hparse', hdatabase⟩ := Outcome.exists_of_bind_eq_ok hcompile
  obtain rfl : d = d' := Except.ok.inj (hparse.symm.trans hparse')
  exact Definition.volumeScale_of_write (database_eq_ok_iff.1 hdatabase) hload

/-- A number between -128 and 128 is written in fixed point and read back as what is kept of it, and so
is the volume of a voice in a source that is compiled and loaded: the 256ths of its magnitude, cut, with
the sign of its whole part. What is read is less than a 256th off, but for the numbers between -1 and 0
that are at least a 256th below zero; these come back without their sign. -/
theorem fixed_kept {x : Single} {q : ℚ} (hq : x.value? = some q) (hlow : -128 < q) (hhigh : q < 128) :
    ∃ y : Single, y.value? = some (FixedPoint.kept q) ∧
      (∀ w : Writer, w.sink.limit = none → ∃ bytes w', Writer.putFixed x w = (.ok (), w') ∧
        w.Appends bytes w' ∧ ∀ data, Read.Takes data Read.fixed bytes y) ∧
      (∀ source d data db, parse source = .ok d → d.volumeScale = x → compile source = .ok data →
        Database.load data = .ok db → db.header.volumeScale = y) ∧
      (|FixedPoint.kept q - q| < 1 / 256 ↔ ¬(-1 < q ∧ q ≤ -1 / 256)) ∧
      (FixedPoint.kept q < 0 ↔ q ≤ -1) := by
  refine ⟨_, FixedPoint.value_decode_encode hq hlow hhigh, fun w hw => ?_, ?_,
    FixedPoint.abs_kept_sub_lt_iff, FixedPoint.kept_neg_iff⟩
  · obtain ⟨_, w', hput, -⟩ := Writer.putFixed_succeeds x hw
    exact ⟨_, w', hput, Writer.putFixed_ok hput, fun data => .fixed _ _⟩
  · rintro source d data db hparse rfl hcompile hload
    exact volumeScale_of_compile hparse hcompile hload

/-- A voice that says nothing but its volume. -/
def loudness (volume : Single) : Definition := { volumeScale := volume }

lemma exists_load_of_loudness {source : Bytes} {volume : Single}
    (hparse : parse source = .ok (loudness volume)) :
    ∃ data db, compile source = .ok data ∧ Database.load data = .ok db := by
  have hstorable : (loudness volume).Storable := by
    have hstrings : ∀ s ∈ (loudness volume).strings, s = [] := by
      simp [Definition.strings, loudness]
    refine ⟨fun s hs => ?_, fun s hs => ?_⟩
    · rw [hstrings s hs]
      exact List.not_mem_nil
    · rw [hstrings s hs]
      rfl
  have himage : (loudness volume).image = [Image.header (loudness volume)] := rfl
  have hexact : (Image.header (loudness volume)).Exact := ⟨rfl, rfl⟩
  obtain ⟨data, hwrite⟩ : ∃ data, (loudness volume).write none = (.ok (), data) := by
    refine exists_assemble ?_ ?_ ?_ <;> rw [himage]
    · exact List.forall_mem_singleton.2 hexact
    · exact List.forall_mem_singleton.2 (.inl rfl)
    · rw [SectionPlan.allBytes, SectionPlan.allBytes, List.append_nil, hexact.length_bytes]
      exact of_decide_eq_true rfl
  obtain ⟨db, hload, -⟩ := Definition.exists_database_of_write hstorable hwrite
  refine ⟨data, db, ?_, hload⟩
  rw [compile, hparse]
  exact database_eq_ok_iff.2 hwrite

/-- The volume 0.75 comes back as it is. -/
theorem fixed_kept_threeQuarters : (⟨0x3F400000⟩ : Single).value? = some (3 / 4) ∧
    (-128 : ℚ) < 3 / 4 ∧ (3 / 4 : ℚ) < 128 ∧ ∃ data db,
      compile (Bytes.ofString ".volume-scale\t0.75\n") = .ok data ∧ Database.load data = .ok db ∧
      db.header.volumeScale.value? = some (3 / 4) := by
  have hvalue : (⟨0x3F400000⟩ : Single).value? = some (3 / 4) := by
    have hview : (⟨0x3F400000⟩ : Single).view = .finite false (0xC00000 <<< 125) := by decide
    rw [Single.value?, hview, Single.unitsPerOne_eq, Nat.shiftLeft_eq]
    norm_num [Single.signed]
  have hkept : FixedPoint.kept (3 / 4) = 3 / 4 := by
    norm_num [FixedPoint.kept]
  have hparse : parse (Bytes.ofString ".volume-scale\t0.75\n") = .ok (loudness ⟨0x3F400000⟩) := by
    decide +kernel
  obtain ⟨data, db, hcompile, hload⟩ := exists_load_of_loudness hparse
  obtain ⟨y, hy, -, hvoice, -⟩ := fixed_kept hvalue (by norm_num) (by norm_num)
  refine ⟨hvalue, by norm_num, by norm_num, data, db, hcompile, hload, ?_⟩
  rw [hvoice _ _ data db hparse rfl hcompile hload, hy, hkept]

/-- The volume -0.5 comes back as 0.5. -/
theorem fixed_not_kept : (⟨0xBF000000⟩ : Single).value? = some (-1 / 2) ∧ ∃ data db,
    parse (Bytes.ofString ".volume-scale\t-0.5\n") = .ok (loudness ⟨0xBF000000⟩) ∧
    compile (Bytes.ofString ".volume-scale\t-0.5\n") = .ok data ∧ Database.load data = .ok db ∧
    db.header.volumeScale.value? = some (1 / 2) ∧ ¬|(1 / 2 : ℚ) - -1 / 2| < 1 / 256 := by
  have hvalue : (⟨0xBF000000⟩ : Single).value? = some (-1 / 2) := by
    have hview : (⟨0xBF000000⟩ : Single).view = .finite true (0x800000 <<< 125) := by decide
    rw [Single.value?, hview, Single.unitsPerOne_eq, Nat.shiftLeft_eq]
    norm_num [Single.signed]
  have hkept : FixedPoint.kept (-1 / 2) = 1 / 2 := by
    norm_num [FixedPoint.kept]
  have hparse : parse (Bytes.ofString ".volume-scale\t-0.5\n") = .ok (loudness ⟨0xBF000000⟩) := by
    decide +kernel
  obtain ⟨data, db, hcompile, hload⟩ := exists_load_of_loudness hparse
  refine ⟨hvalue, data, db, hparse, hcompile, hload, ?_, by norm_num⟩
  rw [volumeScale_of_compile hparse hcompile hload, ← hkept]
  exact FixedPoint.value_decode_encode hvalue (by norm_num) (by norm_num)

end LetterToSound.Voice
