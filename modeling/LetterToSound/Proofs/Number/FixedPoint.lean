import Mathlib
import LetterToSound.Number.Single

/-!
# What fixed point keeps of a number

A finite number of the format is a rational number. One between -128 and 128 is stored by the 256ths of
its magnitude, cut, so that at most one of them is lost. The sign stands in the whole part: where the
whole part is zero there is nothing to carry it, and a number between -1 and 0 comes back without it.
-/

namespace LetterToSound

namespace Single

/-- The number that finite bits stand for. -/
def value? (x : Single) : Option ℚ :=
  match x.view with
  | .finite negative units => some (signed negative units / unitsPerOne)
  | _ => none

lemma exists_view_of_value {x : Single} {q : ℚ} (h : x.value? = some q) :
    ∃ negative units, x.view = .finite negative units ∧
      q = (signed negative units : ℚ) / unitsPerOne := by
  unfold value? at h
  split at h
  · rename_i negative units hview
    exact ⟨negative, units, hview, (Option.some.inj h).symm⟩
  · cases h

lemma unitsPerOne_eq : unitsPerOne = 2 ^ 149 := Nat.one_shiftLeft 149

/-- An exact quotient needs no rounding. -/
lemma divNearest_mul {a b : Nat} (hb : 0 < b) : divNearest (a * b) b = a := by
  unfold divNearest
  rw [Nat.mul_div_cancel _ hb, Nat.mul_mod_left]
  simp only [Nat.mul_zero, Nat.not_lt_zero, false_or]
  rw [if_neg fun h => hb.ne h.1]

/-- Bits that are made of a sign, an exponent and a significand with its hidden bit are seen as
these. -/
lemma view_of_significand (negative : Bool) {exponent significand : Nat} (hexponent : exponent < 254)
    (hlow : 2 ^ 23 ≤ significand) (hhigh : significand < 2 ^ 24) :
    view ⟨UInt32.ofNat (signBits negative + (exponent * 0x800000 + significand))⟩ =
      .finite negative (significand <<< exponent) := by
  have hsign : signBits negative = 0 ∧ negative = false ∨
      signBits negative = 0x80000000 ∧ negative = true := by
    cases negative <;> simp [signBits]
  have hbits : (UInt32.ofNat (signBits negative + (exponent * 0x800000 + significand))).toNat =
      signBits negative + (exponent * 0x800000 + significand) := by
    have hsize : UInt32.size = 0x100000000 := rfl
    refine UInt32.toNat_ofNat_of_lt' ?_
    rcases hsign with ⟨h, -⟩ | ⟨h, -⟩ <;> rw [h] <;> omega
  have hnegative : decide (0x80000000 ≤ signBits negative + (exponent * 0x800000 + significand)) =
      negative := by
    rcases hsign with ⟨h, rfl⟩ | ⟨h, rfl⟩ <;> rw [h]
    · exact decide_eq_false (by omega)
    · exact decide_eq_true (by omega)
  have hfield : (signBits negative + (exponent * 0x800000 + significand)) / 0x800000 % 0x100 =
      exponent + 1 := by
    rcases hsign with ⟨h, -⟩ | ⟨h, -⟩ <;> rw [h] <;> omega
  have hfraction : (signBits negative + (exponent * 0x800000 + significand)) % 0x800000 =
      significand - 0x800000 := by
    rcases hsign with ⟨h, -⟩ | ⟨h, -⟩ <;> rw [h] <;> omega
  have hwhole : 0x800000 + (significand - 0x800000) = significand := by omega
  unfold view
  simp only [hbits, hnegative, hfield, hfraction, hwhole, Nat.add_sub_cancel]
  rw [if_neg (by omega), if_neg (by omega)]

/-- A whole number of 256ths that fits in a significand is a number of the format. -/
lemma view_ofUnits (negative : Bool) {t : Nat} (ht : t < 2 ^ 24) :
    (ofUnits negative (t * unitsPerOne) 256).view = .finite negative (t * 2 ^ 141) := by
  have hquotient : t * unitsPerOne / 256 = t * 2 ^ 141 := by
    rw [unitsPerOne_eq]
    omega
  rcases Nat.eq_zero_or_pos t with rfl | hpos
  · cases negative <;> rfl
  have hlog : 2 ^ t.log2 ≤ t := Nat.log2_self_le hpos.ne'
  have hlog' : t < 2 ^ (t.log2 + 1) := Nat.lt_log2_self
  have hbound : t.log2 < 24 := (Nat.log2_lt hpos.ne').2 ht
  have hshift : (t * unitsPerOne / 256).log2 - 23 = t.log2 + 118 := by
    have hlog2 : (t * 2 ^ 141).log2 = t.log2 + 141 := by
      refine (Nat.log2_eq_iff (by positivity)).2 ⟨?_, ?_⟩
      · rw [pow_add]
        exact Nat.mul_le_mul_right _ hlog
      · rw [show t.log2 + 141 + 1 = t.log2 + 1 + 141 by omega, pow_add]
        exact Nat.mul_lt_mul_of_pos_right hlog' (by positivity)
    rw [hquotient, hlog2]
    omega
  have hsplit : t * unitsPerOne = t * 2 ^ (23 - t.log2) * (256 <<< (t.log2 + 118)) := by
    rw [unitsPerOne_eq, Nat.shiftLeft_eq, show (256 : Nat) = 2 ^ 8 from rfl, mul_assoc, ← pow_add,
      ← pow_add]
    congr 2
    omega
  have hsignificand : divNearest (t * unitsPerOne) (256 <<< (t.log2 + 118)) =
      t * 2 ^ (23 - t.log2) := by
    rw [hsplit]
    refine divNearest_mul ?_
    rw [Nat.shiftLeft_eq]
    positivity
  have hlow : 2 ^ 23 ≤ t * 2 ^ (23 - t.log2) := by
    calc 2 ^ 23 = 2 ^ t.log2 * 2 ^ (23 - t.log2) := by rw [← pow_add]; congr 1; omega
      _ ≤ t * 2 ^ (23 - t.log2) := Nat.mul_le_mul_right _ hlog
  have hhigh : t * 2 ^ (23 - t.log2) < 2 ^ 24 := by
    calc t * 2 ^ (23 - t.log2) < 2 ^ (t.log2 + 1) * 2 ^ (23 - t.log2) :=
          Nat.mul_lt_mul_of_pos_right hlog' (by positivity)
      _ = 2 ^ 24 := by rw [← pow_add]; congr 1; omega
  have hexponent : t.log2 + 118 < 254 := by omega
  have hview := view_of_significand negative hexponent hlow hhigh
  have hunits : (t * 2 ^ (23 - t.log2)) <<< (t.log2 + 118) = t * 2 ^ 141 := by
    rw [Nat.shiftLeft_eq, mul_assoc, ← pow_add]
    congr 2
    omega
  unfold ofUnits
  dsimp only
  rw [hshift, hsignificand, if_neg (by omega), hview, hunits]

lemma value_ofUnits (negative : Bool) {t : Nat} (ht : t < 2 ^ 24) :
    (ofUnits negative (t * unitsPerOne) 256).value? = some ((signed negative t : ℚ) / 256) := by
  rw [value?, view_ofUnits negative ht, unitsPerOne_eq]
  refine congrArg some ?_
  cases negative <;> simp only [signed, if_true, if_false, Bool.false_eq_true] <;> push_cast <;> ring

end Single

namespace FixedPoint

open Single

/-- The whole 256ths of a magnitude that is given in units. -/
def parts (units : Nat) : Nat := units * 256 / unitsPerOne

lemma whole_eq (units : Nat) : units / unitsPerOne = parts units / 256 := by
  rw [parts, Nat.div_div_eq_div_mul, Nat.mul_div_mul_right _ _ (by decide)]

/-- The two bytes of a number below 128 in magnitude. -/
lemma encode_of_view {x : Single} {negative : Bool} {units : Nat}
    (h : x.view = .finite negative units) (hlt : parts units < 128 * 256) :
    encode x = (if negative then UInt8.ofNat (256 - parts units / 256)
      else UInt8.ofNat (parts units / 256), UInt8.ofNat (parts units % 256)) := by
  unfold encode
  rw [h]
  dsimp only
  rw [whole_eq, min_eq_left (by omega), min_eq_left (by omega)]
  rfl

/-- The 256ths of a number come back from its bytes, and its sign with them if there is a whole one. -/
lemma decode_encode {x : Single} {negative : Bool} {units : Nat}
    (h : x.view = .finite negative units) (hlt : parts units < 128 * 256) :
    decode (encode x).1 (encode x).2 =
      ofUnits (negative && decide (256 ≤ parts units)) (parts units * unitsPerOne) 256 := by
  have hfraction : (UInt8.ofNat (parts units % 256)).toNat = parts units % 256 :=
    UInt8.toNat_ofNat_of_lt' (Nat.mod_lt _ (by decide))
  have hwhole : parts units / 256 < 128 := by omega
  rw [encode_of_view h hlt, decode]
  dsimp only
  rw [hfraction]
  by_cases hnegative : negative = true ∧ 256 ≤ parts units
  · obtain ⟨rfl, hone⟩ := hnegative
    have hbyte : (UInt8.ofNat (256 - parts units / 256)).toNat = 256 - parts units / 256 :=
      UInt8.toNat_ofNat_of_lt' (show _ < 256 by omega)
    rw [if_pos rfl, hbyte, if_pos (by omega), decide_eq_true hone, Bool.and_self]
    congr 2
    omega
  · have hbyte : (if negative = true then UInt8.ofNat (256 - parts units / 256)
        else UInt8.ofNat (parts units / 256)).toNat = parts units / 256 := by
      split
      · rename_i htrue
        rw [Nat.div_eq_of_lt (not_le.1 fun hone => hnegative ⟨htrue, hone⟩)]
        rfl
      · exact UInt8.toNat_ofNat_of_lt' (show _ < 256 by omega)
    have hsign : (negative && decide (256 ≤ parts units)) = false := by
      simpa using hnegative
    rw [hbyte, if_neg (by omega), hsign]
    congr 2
    omega

/-- The 256ths of a magnitude are counted as those of the number. -/
lemma parts_eq_floor {negative : Bool} {units : Nat} {q : ℚ}
    (h : q = (signed negative units : ℚ) / unitsPerOne) : parts units = ⌊|q| * 256⌋₊ := by
  have habs : |q| = (units : ℚ) / unitsPerOne := by
    have hpos : (0 : ℚ) ≤ unitsPerOne := Nat.cast_nonneg _
    rw [h, abs_div, abs_of_nonneg hpos]
    cases negative <;> simp [signed]
  have hquotient : |q| * 256 = ((units * 256 : Nat) : ℚ) / (unitsPerOne : Nat) := by
    rw [habs]
    push_cast
    ring
  rw [hquotient, Nat.floor_div_eq_div, parts]

/-- What fixed point keeps of a number: the whole 256ths of its magnitude, with the sign that its whole
part has. -/
def kept (q : ℚ) : ℚ := (if q ≤ -1 then -1 else 1) * (⌊|q| * 256⌋₊ / 256)

/-- The sign comes back with a whole part, which is where the number is at most -1. -/
lemma signed_whole_iff {negative : Bool} {units : Nat} {q : ℚ}
    (h : q = (signed negative units : ℚ) / unitsPerOne) :
    negative = true ∧ 256 ≤ parts units ↔ q ≤ -1 := by
  have hwhole : 256 ≤ parts units ↔ 1 ≤ |q| := by
    rw [parts_eq_floor h, Nat.le_floor_iff (by positivity)]
    constructor <;> intro hle <;> push_cast at * <;> linarith
  have hmagnitude : (0 : ℚ) ≤ (units : ℚ) / unitsPerOne := by positivity
  rw [hwhole]
  cases negative with
  | false =>
    have hnonneg : 0 ≤ q := by simpa [h, signed] using hmagnitude
    exact ⟨fun hfalse => (Bool.false_ne_true hfalse.1).elim, fun hle => by linarith⟩
  | true =>
    have hnonpos : q ≤ 0 := by
      rw [h]
      simpa [signed, neg_div] using hmagnitude
    rw [abs_of_nonpos hnonpos]
    exact ⟨fun hle => by linarith [hle.2], fun hle => ⟨rfl, by linarith⟩⟩

/-- A number between -128 and 128 comes back from its two bytes as what is kept of it. -/
theorem value_decode_encode {x : Single} {q : ℚ} (hq : x.value? = some q) (hlow : -128 < q)
    (hhigh : q < 128) : (decode (encode x).1 (encode x).2).value? = some (kept q) := by
  obtain ⟨negative, units, hview, hvalue⟩ := exists_view_of_value hq
  have hparts := parts_eq_floor hvalue
  have habs : |q| < 128 := abs_lt.2 ⟨hlow, hhigh⟩
  have hlt : parts units < 128 * 256 := by
    rw [hparts, Nat.floor_lt (by positivity)]
    push_cast
    linarith
  have hsign : (negative && decide (256 ≤ parts units)) = decide (q ≤ -1) := by
    rw [Bool.eq_iff_iff, Bool.and_eq_true, decide_eq_true_iff, decide_eq_true_iff,
      signed_whole_iff hvalue]
  rw [decode_encode hview hlt, value_ofUnits _ (by omega), hsign, hparts, kept]
  by_cases hone : q ≤ -1
  · simp [hone, signed]
    ring
  · simp [hone, signed]

section Kept

variable {q : ℚ}

lemma kept_of_le (h : q ≤ -1) : kept q = -(⌊|q| * 256⌋₊ / 256) := by
  rw [kept, if_pos h, neg_one_mul]

lemma kept_of_not_le (h : ¬q ≤ -1) : kept q = ⌊|q| * 256⌋₊ / 256 := by
  rw [kept, if_neg h, one_mul]

/-- What is kept of a number is below zero just where the number has a whole part below zero. -/
lemma kept_neg_iff : kept q < 0 ↔ q ≤ -1 := by
  by_cases h : q ≤ -1
  · have hfloor : (256 : ℚ) ≤ ⌊|q| * 256⌋₊ := by
      have hone : 256 ≤ ⌊|q| * 256⌋₊ := by
        rw [Nat.le_floor_iff (by positivity), abs_of_nonpos (by linarith)]
        push_cast
        linarith
      exact_mod_cast hone
    rw [kept_of_le h]
    exact ⟨fun _ => h, fun _ => by linarith⟩
  · have hnonneg : (0 : ℚ) ≤ ⌊|q| * 256⌋₊ / 256 := by positivity
    rw [kept_of_not_le h]
    exact ⟨fun hlt => absurd hlt (not_lt.2 hnonneg), fun hle => absurd hle h⟩

/-- Less than a 256th is lost, unless the sign is lost and the number is not that small. -/
lemma abs_kept_sub_lt_iff : |kept q - q| < 1 / 256 ↔ ¬(-1 < q ∧ q ≤ -1 / 256) := by
  have hle : (⌊|q| * 256⌋₊ : ℚ) ≤ |q| * 256 := Nat.floor_le (by positivity)
  have hlt : |q| * 256 < ⌊|q| * 256⌋₊ + 1 := Nat.lt_floor_add_one _
  by_cases hone : q ≤ -1
  · rw [kept_of_le hone, abs_lt]
    rw [abs_of_nonpos (by linarith)] at hle hlt ⊢
    exact ⟨fun _ h => by linarith [h.1], fun _ => ⟨by linarith, by linarith⟩⟩
  rw [kept_of_not_le hone]
  rcases le_or_gt 0 q with hnonneg | hneg
  · rw [abs_lt]
    rw [abs_of_nonneg hnonneg] at hle hlt ⊢
    exact ⟨fun _ h => by linarith [h.2], fun _ => ⟨by linarith, by linarith⟩⟩
  · -- the sign is lost, and the distance is the sum of both magnitudes
    have hfloor : (0 : ℚ) ≤ ⌊|q| * 256⌋₊ := Nat.cast_nonneg _
    have hdistance : 0 ≤ (⌊|q| * 256⌋₊ : ℚ) / 256 - q := by linarith
    rw [abs_of_nonneg hdistance]
    rw [abs_of_neg hneg] at hle hlt ⊢
    constructor
    · rintro hclose ⟨-, hsmall⟩
      have hpart : 1 ≤ ⌊-q * 256⌋₊ := by
        rw [Nat.le_floor_iff (by linarith)]
        push_cast
        linarith
      have hpart' : (1 : ℚ) ≤ ⌊-q * 256⌋₊ := by exact_mod_cast hpart
      linarith
    · intro hfar
      have hsmall : -1 / 256 < q := not_le.1 fun h => hfar ⟨not_le.1 hone, h⟩
      have hnone : ⌊-q * 256⌋₊ = 0 := Nat.floor_eq_zero.2 (by linarith)
      rw [hnone]
      push_cast
      linarith

end Kept

end FixedPoint

end LetterToSound
