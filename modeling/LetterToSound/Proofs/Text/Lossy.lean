import Mathlib
import LetterToSound.Text.Bytes

/-!
# Where bytes that are read as text are that text

Bytes that are no UTF-8 read as replacement characters, and a character of more than one byte lies
behind those of ASCII. So a text of ASCII characters can only have been read from its own bytes. A byte
of ASCII is never part of a longer character, so it is always read as the character of its number.
-/

namespace LetterToSound.Utf8

/-- What continuation bytes add to a value: each six bits behind those before. -/
lemma mul_pow_le_of_readTail {following value v : Nat} {low high : UInt8} {bytes rest : Bytes}
    (hlow : 128 ≤ low.toNat) (hhigh : high.toNat ≤ 191)
    (h : readTail (following + 1) low high value bytes = (some v, rest)) :
    (value * 64 + (low.toNat - 128)) * 64 ^ following ≤ v := by
  induction following generalizing value low high bytes with
  | zero =>
    cases bytes with
    | nil => cases h
    | cons b bytes =>
      rw [readTail] at h
      split at h
      · rename_i hrange
        cases h
        have hle : low.toNat ≤ b.toNat ∧ b.toNat ≤ high.toNat := hrange
        omega
      · cases h
  | succ following ih =>
    cases bytes with
    | nil => cases h
    | cons b bytes =>
      rw [readTail] at h
      split at h
      · rename_i hrange
        have hle : low.toNat ≤ b.toNat ∧ b.toNat ≤ high.toNat := hrange
        have hrest := ih (by decide) (by decide) h
        have hstep : (value * 64 + (low.toNat - 128)) * 64 ≤ (value * 64 + b.toNat % 64) * 64 := by
          omega
        calc (value * 64 + (low.toNat - 128)) * 64 ^ (following + 1)
            = (value * 64 + (low.toNat - 128)) * 64 * 64 ^ following := by ring
          _ ≤ (value * 64 + b.toNat % 64) * 64 * 64 ^ following := Nat.mul_le_mul_right _ hstep
          _ ≤ v := hrest
      · cases h

/-- A lead byte is a character of ASCII, or the bytes behind it make a character that is none. -/
lemma lead?_eq_some {b : UInt8} {lead : Lead} (h : lead? b = some lead) :
    (b.toNat < 128 ∧ lead.following = 0 ∧ lead.payload = b.toNat) ∨
      ∃ following, lead.following = following + 1 ∧ 128 ≤ lead.low.toNat ∧ lead.high.toNat ≤ 191 ∧
        128 ≤ (lead.payload * 64 + (lead.low.toNat - 128)) * 64 ^ following := by
  unfold lead? at h
  dsimp only at h
  split_ifs at h <;> simp only [Option.some.injEq] at h <;> subst h
  · exact .inl ⟨by assumption, rfl, rfl⟩
  all_goals
    refine .inr ⟨_, rfl, ?_⟩
    simp only [UInt8.reduceToNat]
    omega

lemma toNat_ofNat (n : Nat) : (Char.ofNat n).toNat = n ∨ (Char.ofNat n).toNat = 0 := by
  unfold Char.ofNat
  split
  · exact .inl rfl
  · exact .inr rfl

/-- A character of ASCII has been read from the byte of its number. -/
lemma next_of_ascii {b : UInt8} {bytes : Bytes} (hpos : 0 < (next b bytes).1.toNat)
    (hlt : (next b bytes).1.toNat < 128) :
    b.toNat = (next b bytes).1.toNat ∧ (next b bytes).2 = bytes := by
  have hreplacement : replacement.toNat = 0xFFFD := by decide
  rw [next] at hpos hlt ⊢
  cases hlead : lead? b with
  | none =>
    simp only [hlead] at hlt
    omega
  | some lead =>
    simp only [hlead] at hpos hlt ⊢
    rcases lead?_eq_some hlead with ⟨-, hfollowing, hpayload⟩ | ⟨k, hfollowing, hlow, hhigh, hle⟩
    · simp only [hfollowing, readTail, hpayload] at hpos ⊢
      rcases toNat_ofNat b.toNat with hb | hb
      · exact ⟨hb.symm, trivial⟩
      · omega
    · rw [hfollowing] at hlt
      split at hlt
      · rename_i v rest htail
        have hv := mul_pow_le_of_readTail hlow hhigh htail
        rw [hfollowing, htail] at hpos
        dsimp only at hpos hlt
        rcases toNat_ofNat v with hb | hb <;> omega
      · dsimp only at hlt
        omega

lemma lossyChars_eq (read : List Char) (bytes : Bytes) :
    lossyChars read bytes = read.reverse ++ lossyChars [] bytes := by
  induction hn : bytes.length using Nat.strong_induction_on generalizing read bytes with
  | _ n ih =>
    subst hn
    cases bytes with
    | nil => simp [lossyChars]
    | cons b bytes =>
      have hlt : (next b bytes).2.length < (b :: bytes).length :=
        Nat.lt_succ_of_le (length_next_le b bytes)
      rw [lossyChars, lossyChars, ih _ hlt _ _ rfl, ih _ hlt [(next b bytes).1] _ rfl]
      simp

lemma utf8EncodeChar_of_ascii {c : Char} (h : c.toNat < 128) :
    String.utf8EncodeChar c = [UInt8.ofNat c.toNat] := by
  unfold String.utf8EncodeChar
  simp only [Char.toNat_val]
  rw [if_pos (by omega)]

lemma ofString_eq (s : String) : Bytes.ofString s = s.toList.flatMap String.utf8EncodeChar := by
  rw [Bytes.ofString, String.toUTF8_eq_toByteArray, ← String.utf8Encode_toList, List.utf8Encode,
    List.data_toByteArray]

/-- A text of ASCII characters has a byte for each of them. -/
lemma ofString_of_ascii {s : String} (hs : ∀ c ∈ s.toList, c.toNat < 128) :
    Bytes.ofString s = s.toList.map fun c => UInt8.ofNat c.toNat := by
  rw [ofString_eq, List.map_eq_flatMap]
  exact List.flatMap_congr fun c hc => utf8EncodeChar_of_ascii (hs c hc)

/-- A text of ASCII characters has been read from its own bytes. -/
theorem eq_of_lossy_eq {bytes : Bytes} {s : String}
    (hs : ∀ c ∈ s.toList, 0 < c.toNat ∧ c.toNat < 128) (h : lossy bytes = s) :
    bytes = Bytes.ofString s := by
  have hchars : lossyChars [] bytes = s.toList := by
    rw [← h, lossy, String.toList_ofList]
  rw [ofString_eq]
  clear h
  generalize s.toList = chars at hs hchars
  induction chars generalizing bytes with
  | nil =>
    cases bytes with
    | nil => rfl
    | cons b bytes =>
      rw [lossyChars, lossyChars_eq] at hchars
      cases hchars
  | cons c chars ih =>
    cases bytes with
    | nil =>
      rw [lossyChars] at hchars
      cases hchars
    | cons b bytes =>
      rw [lossyChars, lossyChars_eq, List.reverse_singleton, List.singleton_append] at hchars
      obtain ⟨rfl, hrest⟩ := List.cons.inj hchars
      obtain ⟨⟨hpos, hlt⟩, hs⟩ := List.forall_mem_cons.mp hs
      obtain ⟨hb, hbytes⟩ := next_of_ascii hpos hlt
      rw [hbytes] at hrest
      rw [List.flatMap_cons, utf8EncodeChar_of_ascii hlt, ← hb, UInt8.ofNat_toNat, ← ih hs hrest,
        List.singleton_append]

section Ascii

variable {a b : UInt8} {bytes : Bytes}

lemma ascii_mem_readTail {following value : Nat} {low high : UInt8} (ha : a.toNat < 128)
    (hlow : 128 ≤ low.toNat) (h : a ∈ bytes) : a ∈ (readTail following low high value bytes).2 := by
  fun_induction readTail following low high value bytes with
  | case1 => exact h
  | case2 => exact h
  | case3 following low high value b bytes hrange ih =>
    refine ih (by decide) ((List.mem_cons.mp h).resolve_left ?_)
    rintro rfl
    have hle : low.toNat ≤ a.toNat := hrange.1
    omega
  | case4 => exact h

/-- Reading a character passes over no byte of ASCII. -/
lemma ascii_mem_next (ha : a.toNat < 128) (h : a ∈ bytes) : a ∈ (next b bytes).2 := by
  rw [next]
  cases hlead : lead? b with
  | none => exact h
  | some lead =>
    have hrest : a ∈ (readTail lead.following lead.low lead.high lead.payload bytes).2 := by
      rcases lead?_eq_some hlead with ⟨-, hfollowing, -⟩ | ⟨k, -, hlow, -⟩
      · rw [hfollowing]
        exact h
      · exact ascii_mem_readTail ha hlow h
    dsimp only
    split
    · rename_i heq
      rwa [heq] at hrest
    · rename_i heq
      rwa [heq] at hrest

lemma next_ascii (ha : a.toNat < 128) (bytes : Bytes) : next a bytes = (Char.ofNat a.toNat, bytes) := by
  rw [next, lead?, if_pos ha]
  rfl

/-- A byte of ASCII is read as the character of its number. -/
theorem ascii_mem_lossy (ha : a.toNat < 128) (h : a ∈ bytes) :
    Char.ofNat a.toNat ∈ (lossy bytes).toList := by
  rw [lossy, String.toList_ofList]
  induction hn : bytes.length using Nat.strong_induction_on generalizing bytes with
  | _ n ih =>
    subst hn
    cases bytes with
    | nil => cases h
    | cons b bytes =>
      rw [lossyChars, lossyChars_eq, List.reverse_singleton, List.singleton_append]
      by_cases hb : b = a
      · rw [hb, next_ascii ha]
        exact List.mem_cons_self
      · have hrest := ascii_mem_next (b := b) ha ((List.mem_cons.mp h).resolve_left (Ne.symm hb))
        exact List.mem_cons_of_mem _
          (ih _ (Nat.lt_succ_of_le (length_next_le b bytes)) hrest rfl)

/-- A text of ASCII characters is read back from its bytes. -/
theorem lossy_ofString {s : String} (hs : ∀ c ∈ s.toList, c.toNat < 128) :
    lossy (Bytes.ofString s) = s := by
  rw [ofString_eq, lossy, ← String.toList_inj, String.toList_ofList]
  generalize s.toList = chars at hs
  induction chars with
  | nil => simp [lossyChars]
  | cons c chars ih =>
    obtain ⟨hlt, hs⟩ := List.forall_mem_cons.mp hs
    have hnumber : (UInt8.ofNat c.toNat).toNat = c.toNat := by
      rw [UInt8.toNat_ofNat']
      omega
    have hnext := next_ascii (hnumber.trans_lt hlt) (chars.flatMap String.utf8EncodeChar)
    rw [hnumber, Char.ofNat_toNat] at hnext
    rw [List.flatMap_cons, utf8EncodeChar_of_ascii hlt, List.singleton_append, lossyChars, lossyChars_eq,
      hnext, ih hs]
    rfl

end Ascii

end LetterToSound.Utf8
