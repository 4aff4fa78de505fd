import Mathlib.Algebra.Group.Int.Defs
import Mathlib.Algebra.GroupWithZero.Nat

/-! Conversions between IEEE 754 single and double precision and to unsigned
integers, on bit patterns. NaNs are quieted and keep the top of their payload. -/

namespace TptProto.Foundation.Ieee

/-- Division by `2 ^ shift`, rounded to nearest with ties to even. -/
def roundShift (n shift : Nat) : Nat :=
  let quotient := n / 2 ^ shift
  let double := 2 * (n % 2 ^ shift)
  if 2 ^ shift < double then quotient + 1
  else if double = 2 ^ shift ∧ quotient % 2 = 1 then quotient + 1
  else quotient

/-- Exponent and fraction of a double, packed, from those of a single. -/
def widenMagnitude (exp frac : Nat) : Nat :=
  if exp = 255 then
    if frac = 0 then 2047 * 2 ^ 52 else 2047 * 2 ^ 52 + (frac ||| 2 ^ 22) * 2 ^ 29
  else if exp = 0 then
    if frac = 0 then 0
    else (frac.log2 + 874) * 2 ^ 52 + (frac - 2 ^ frac.log2) * 2 ^ (52 - frac.log2)
  else (exp + 896) * 2 ^ 52 + frac * 2 ^ 29

/-- Exponent and fraction of a single, packed, from those of a double. -/
def narrowMagnitude (exp frac : Nat) : Nat :=
  if exp = 2047 then
    if frac = 0 then 255 * 2 ^ 23 else 255 * 2 ^ 23 + (frac / 2 ^ 29 ||| 2 ^ 22)
  else if 897 ≤ exp then min (255 * 2 ^ 23) ((exp - 896) * 2 ^ 23 + roundShift frac 29)
  else if exp = 0 then roundShift frac 925
  else roundShift (2 ^ 52 + frac) (926 - exp)

/-- `f32 as f64`. -/
def widen (bits : UInt32) : UInt64 :=
  UInt64.ofNat (bits.toNat / 2 ^ 31 * 2 ^ 63 +
    widenMagnitude (bits.toNat / 2 ^ 23 % 2 ^ 8) (bits.toNat % 2 ^ 23))

/-- `f64 as f32`. -/
def narrow (bits : UInt64) : UInt32 :=
  UInt32.ofNat (bits.toNat / 2 ^ 63 * 2 ^ 31 +
    narrowMagnitude (bits.toNat / 2 ^ 52 % 2 ^ 11) (bits.toNat % 2 ^ 52))

/-- A double that survives conversion to single precision and back. -/
def Representable (bits : UInt64) : Prop := widen (narrow bits) = bits

instance (bits : UInt64) : Decidable (Representable bits) :=
  inferInstanceAs (Decidable (widen (narrow bits) = bits))

/-- Magnitude rounded toward zero from exponent and fraction fields, given the bias
and the fraction's width. Subnormals are below one. -/
def wholePart (bias fracWidth exp frac : Nat) : Nat :=
  if exp = 0 then 0 else (2 ^ fracWidth + frac) * 2 ^ exp / 2 ^ (bias + fracWidth)

/-- A cast to an integer type with range `[low, high]`: NaN is zero, the rest saturates. -/
def truncate (expWidth fracWidth : Nat) (low high : Int) (bits : Nat) : Int :=
  let exp := bits / 2 ^ fracWidth % 2 ^ expWidth
  let frac := bits % 2 ^ fracWidth
  let negative := bits / 2 ^ (expWidth + fracWidth) = 1
  if exp = 2 ^ expWidth - 1 then
    if frac ≠ 0 then 0 else if negative then low else high
  else
    let whole : Int := wholePart (2 ^ (expWidth - 1) - 1) fracWidth exp frac
    max low (min high (if negative then -whole else whole))

def truncate32 (low high : Int) (bits : UInt32) : Int := truncate 8 23 low high bits.toNat

def truncate64 (low high : Int) (bits : UInt64) : Int := truncate 11 52 low high bits.toNat

private theorem wholePart_below {bias fracWidth exp frac : Nat} (below : exp < bias)
    (short : frac < 2 ^ fracWidth) : wholePart bias fracWidth exp frac = 0 := by
  unfold wholePart
  split
  · rfl
  · refine Nat.div_eq_of_lt ?_
    calc (2 ^ fracWidth + frac) * 2 ^ exp
        < 2 ^ (fracWidth + 1) * 2 ^ exp :=
          Nat.mul_lt_mul_of_pos_right (by rw [Nat.pow_succ]; omega) (Nat.two_pow_pos _)
      _ = 2 ^ (fracWidth + 1 + exp) := (Nat.pow_add 2 _ _).symm
      _ ≤ 2 ^ (bias + fracWidth) := Nat.pow_le_pow_right (by decide) (by omega)

/-- From the bias on, the whole part is the significand scaled by the exponent. -/
private theorem wholePart_above {bias fracWidth scale frac : Nat} (positive : 0 < bias) :
    wholePart bias fracWidth (bias + scale) frac = (2 ^ fracWidth + frac) * 2 ^ scale / 2 ^ fracWidth := by
  rw [wholePart, if_neg (by omega), Nat.pow_add, Nat.pow_add, ← Nat.mul_assoc, Nat.mul_right_comm,
    Nat.mul_comm (2 ^ bias) (2 ^ fracWidth), Nat.mul_div_mul_right _ _ (Nat.two_pow_pos _)]

/-- What is at least one, read as a single's whole part, is never its own bit pattern. -/
private theorem wholePart_single {exp frac : Nat} (one : 127 ≤ exp) (short : frac < 2 ^ 23) :
    min (2 ^ 32 - 1) (wholePart 127 23 exp frac) ≠ exp * 2 ^ 23 + frac ∨ 255 ≤ exp := by
  obtain ⟨scale, rfl⟩ := Nat.exists_eq_add_of_le one
  rw [wholePart_above (by decide)]
  by_cases low : scale ≤ 23
  · have small : (2 ^ 23 + frac) * 2 ^ scale / 2 ^ 23 < 2 ^ 24 := by
      refine Nat.div_lt_of_lt_mul ?_
      calc (2 ^ 23 + frac) * 2 ^ scale
          ≤ (2 ^ 23 + frac) * 2 ^ 23 :=
            Nat.mul_le_mul_left _ (Nat.pow_le_pow_right (by decide) low)
        _ < 2 ^ 23 * 2 ^ 24 := by omega
    omega
  · by_cases high : 32 ≤ scale
    · have large : 2 ^ 32 ≤ (2 ^ 23 + frac) * 2 ^ scale / 2 ^ 23 := by
        refine (Nat.le_div_iff_mul_le (by decide)).mpr ?_
        calc 2 ^ 32 * 2 ^ 23
            ≤ 2 ^ scale * 2 ^ 23 := Nat.mul_le_mul_right _ (Nat.pow_le_pow_right (by decide) high)
          _ = 2 ^ 23 * 2 ^ scale := Nat.mul_comm _ _
          _ ≤ (2 ^ 23 + frac) * 2 ^ scale := Nat.mul_le_mul_right _ (Nat.le_add_right _ _)
      omega
    · have few : scale = 24 ∨ scale = 25 ∨ scale = 26 ∨ scale = 27 ∨ scale = 28 ∨ scale = 29 ∨
          scale = 30 ∨ scale = 31 := by omega
      rcases few with rfl | rfl | rfl | rfl | rfl | rfl | rfl | rfl <;> omega

private theorem wholePart_double {exp frac : Nat} (one : 1023 ≤ exp) (short : frac < 2 ^ 52) :
    min (2 ^ 64 - 1) (wholePart 1023 52 exp frac) ≠ exp * 2 ^ 52 + frac ∨ 2047 ≤ exp := by
  obtain ⟨scale, rfl⟩ := Nat.exists_eq_add_of_le one
  rw [wholePart_above (by decide)]
  by_cases low : scale ≤ 52
  · have small : (2 ^ 52 + frac) * 2 ^ scale / 2 ^ 52 < 2 ^ 53 := by
      refine Nat.div_lt_of_lt_mul ?_
      calc (2 ^ 52 + frac) * 2 ^ scale
          ≤ (2 ^ 52 + frac) * 2 ^ 52 :=
            Nat.mul_le_mul_left _ (Nat.pow_le_pow_right (by decide) low)
        _ < 2 ^ 52 * 2 ^ 53 := by omega
    omega
  · by_cases high : 64 ≤ scale
    · have large : 2 ^ 64 ≤ (2 ^ 52 + frac) * 2 ^ scale / 2 ^ 52 := by
        refine (Nat.le_div_iff_mul_le (by decide)).mpr ?_
        calc 2 ^ 64 * 2 ^ 52
            ≤ 2 ^ scale * 2 ^ 52 := Nat.mul_le_mul_right _ (Nat.pow_le_pow_right (by decide) high)
          _ = 2 ^ 52 * 2 ^ scale := Nat.mul_comm _ _
          _ ≤ (2 ^ 52 + frac) * 2 ^ scale := Nat.mul_le_mul_right _ (Nat.le_add_right _ _)
      omega
    · have few : scale = 53 ∨ scale = 54 ∨ scale = 55 ∨ scale = 56 ∨ scale = 57 ∨ scale = 58 ∨
          scale = 59 ∨ scale = 60 ∨ scale = 61 ∨ scale = 62 ∨ scale = 63 := by omega
      rcases few with rfl | rfl | rfl | rfl | rfl | rfl | rfl | rfl | rfl | rfl | rfl <;> omega

/-- A single cast to `u32` is its own bit pattern for positive zero only. -/
theorem truncate32_eq_bits_iff (bits : UInt32) :
    UInt32.ofNat (truncate32 0 (2 ^ 32 - 1) bits).toNat = bits ↔ bits = 0 := by
  refine ⟨fun same => ?_, fun zero => by subst zero; decide⟩
  have bound := bits.toNat_lt
  replace same := congrArg UInt32.toNat same
  rw [UInt32.toNat_ofNat'] at same
  apply UInt32.toNat_inj.mp
  simp only [truncate32, truncate] at same
  rw [UInt32.toNat_zero]
  by_cases special : bits.toNat / 2 ^ 23 % 2 ^ 8 = 2 ^ 8 - 1
  · rw [if_pos special] at same
    split at same
    · omega
    · split at same <;> omega
  · rw [if_neg special] at same
    split at same
    · omega
    · by_cases below : bits.toNat / 2 ^ 23 % 2 ^ 8 < 127
      · have nothing : wholePart (2 ^ (8 - 1) - 1) 23 (bits.toNat / 2 ^ 23 % 2 ^ 8)
            (bits.toNat % 2 ^ 23) = 0 := wholePart_below below (Nat.mod_lt _ (by decide))
        rw [nothing] at same
        omega
      · have never := wholePart_single (Nat.le_of_not_lt below) (Nat.mod_lt bits.toNat (by decide))
        generalize wholePart _ _ _ _ = whole at same never
        omega

/-- A double cast to `u64` is its own bit pattern for positive zero only. -/
theorem truncate64_eq_bits_iff (bits : UInt64) :
    UInt64.ofNat (truncate64 0 (2 ^ 64 - 1) bits).toNat = bits ↔ bits = 0 := by
  refine ⟨fun same => ?_, fun zero => by subst zero; decide⟩
  have bound := bits.toNat_lt
  replace same := congrArg UInt64.toNat same
  rw [UInt64.toNat_ofNat'] at same
  apply UInt64.toNat_inj.mp
  simp only [truncate64, truncate] at same
  rw [UInt64.toNat_zero]
  by_cases special : bits.toNat / 2 ^ 52 % 2 ^ 11 = 2 ^ 11 - 1
  · rw [if_pos special] at same
    split at same
    · omega
    · split at same <;> omega
  · rw [if_neg special] at same
    split at same
    · omega
    · by_cases below : bits.toNat / 2 ^ 52 % 2 ^ 11 < 1023
      · have nothing : wholePart (2 ^ (11 - 1) - 1) 52 (bits.toNat / 2 ^ 52 % 2 ^ 11)
            (bits.toNat % 2 ^ 52) = 0 := wholePart_below below (Nat.mod_lt _ (by decide))
        rw [nothing] at same
        omega
      · have never := wholePart_double (Nat.le_of_not_lt below) (Nat.mod_lt bits.toNat (by decide))
        generalize wholePart _ _ _ _ = whole at same never
        omega

/-- Neither an infinity nor a NaN. -/
def Finite (bits : UInt64) : Prop := bits.toNat / 2 ^ 52 % 2 ^ 11 ≠ 2047

instance (bits : UInt64) : Decidable (Finite bits) :=
  inferInstanceAs (Decidable (bits.toNat / 2 ^ 52 % 2 ^ 11 ≠ 2047))

/-- Exponent and fraction of the double nearest to a positive integer below `2 ^ 64`. -/
def magnitudeOfNat (n : Nat) : Nat :=
  if n.log2 ≤ 52 then (n.log2 + 1023) * 2 ^ 52 + (n - 2 ^ n.log2) * 2 ^ (52 - n.log2)
  else (n.log2 + 1022) * 2 ^ 52 + roundShift n (n.log2 - 52)

/-- `u64 as f64`. -/
def ofNat (n : Nat) : UInt64 := if n = 0 then 0 else UInt64.ofNat (magnitudeOfNat n)

/-- `i64 as f64`. -/
def ofInt (n : Int) : UInt64 :=
  if n < 0 then UInt64.ofNat (2 ^ 63 + magnitudeOfNat n.natAbs) else ofNat n.toNat

example : ofInt (-3) = 0xC008000000000000 := by decide

example : ofNat (2 ^ 53 + 1) = ofNat (2 ^ 53) := by decide

theorem roundShift_le (n shift : Nat) : roundShift n shift ≤ n / 2 ^ shift + 1 := by
  unfold roundShift
  dsimp only
  repeat' split
  all_goals omega

theorem magnitudeOfNat_lt {n : Nat} (positive : n ≠ 0) (small : n < 2 ^ 64) :
    magnitudeOfNat n < 2047 * 2 ^ 52 := by
  have top : n.log2 < 64 := (Nat.log2_lt positive).mpr small
  have above : n < 2 ^ (n.log2 + 1) := (Nat.log2_lt positive).mp (Nat.lt_succ_self _)
  unfold magnitudeOfNat
  split
  · rename_i short
    have fraction : (n - 2 ^ n.log2) * 2 ^ (52 - n.log2) ≤ 2 ^ n.log2 * 2 ^ (52 - n.log2) :=
      Nat.mul_le_mul_right _ (by rw [Nat.pow_succ] at above; omega)
    rw [← Nat.pow_add, Nat.add_sub_cancel' short] at fraction
    omega
  · rename_i long
    have rounded := roundShift_le n (n.log2 - 52)
    have quotient : n / 2 ^ (n.log2 - 52) < 2 ^ 53 := by
      refine Nat.div_lt_of_lt_mul ?_
      rw [← Nat.pow_add, show n.log2 - 52 + 53 = n.log2 + 1 by omega]
      exact above
    omega

/-- An unsigned integer of 64 bits converts to a finite double. -/
theorem finite_ofNat {n : Nat} (small : n < 2 ^ 64) : Finite (ofNat n) := by
  unfold ofNat
  split
  · decide
  · rename_i positive
    have bound := magnitudeOfNat_lt positive small
    rw [Finite, UInt64.toNat_ofNat']
    omega

theorem finite_ofInt {n : Int} (small : n.natAbs < 2 ^ 64) : Finite (ofInt n) := by
  unfold ofInt
  split
  · have bound := magnitudeOfNat_lt (n := n.natAbs) (by omega) small
    rw [Finite, UInt64.toNat_ofNat']
    omega
  · exact finite_ofNat (by omega)

/-- How many of the units in which `units` counts make one. -/
def unitsPerOne : Nat := 2 ^ 1075

/-- The magnitude of a finite double, in units that make it whole. -/
def units (bits : UInt64) : Nat :=
  let exp := bits.toNat / 2 ^ 52 % 2 ^ 11
  let frac := bits.toNat % 2 ^ 52
  if exp = 0 then 2 * frac else (2 ^ 52 + frac) * 2 ^ exp

/-- The double is finite and equal to the integer. -/
def Denotes (bits : UInt64) (n : Int) : Prop :=
  Finite bits ∧
    (if bits.toNat / 2 ^ 63 = 1 then -(units bits : Int) else units bits) = n * unitsPerOne

instance (bits : UInt64) (n : Int) : Decidable (Denotes bits n) :=
  inferInstanceAs (Decidable (_ ∧ _))

private theorem unitsPerOne_pos : 0 < unitsPerOne := Nat.two_pow_pos _

theorem Denotes.unique {bits : UInt64} {first second : Int} (one : Denotes bits first)
    (other : Denotes bits second) : first = second := by
  have positive := unitsPerOne_pos
  exact Int.eq_of_mul_eq_mul_right (by omega) (one.2.symm.trans other.2)

private theorem wholePart_of_units {bits : UInt64} {n : Nat}
    (same : units bits = n * unitsPerOne) :
    wholePart 1023 52 (bits.toNat / 2 ^ 52 % 2 ^ 11) (bits.toNat % 2 ^ 52) = n := by
  unfold units at same
  unfold wholePart
  by_cases subnormal : bits.toNat / 2 ^ 52 % 2 ^ 11 = 0
  · rw [if_pos subnormal] at same ⊢
    have small : n * unitsPerOne < unitsPerOne := by
      rw [← same]
      calc 2 * (bits.toNat % 2 ^ 52) < 2 ^ 53 := by omega
        _ ≤ unitsPerOne := Nat.pow_le_pow_right (by decide) (by decide)
    rcases Nat.eq_zero_or_pos n with zero | positive
    · exact zero.symm
    · have := Nat.le_mul_of_pos_left unitsPerOne positive
      exact (Nat.not_lt.mpr this small).elim
  · rw [if_neg subnormal] at same ⊢
    rw [same]
    exact Nat.mul_div_cancel _ unitsPerOne_pos

/-- The sign of an integer that scales to a signed magnitude. -/
private theorem signed_of_scaled {negative : Prop} [Decidable negative] {magnitude scale : Nat}
    {n : Int} (positive : 0 < scale)
    (same : (if negative then -(magnitude : Int) else magnitude) = n * scale) :
    magnitude = n.natAbs * scale ∧ (if negative then -(n.natAbs : Int) else n.natAbs) = n := by
  have absolute : magnitude = n.natAbs * scale := by
    have abs := congrArg Int.natAbs same
    rw [Int.natAbs_mul, Int.natAbs_natCast] at abs
    rw [← abs]
    split <;> simp
  refine ⟨absolute, ?_⟩
  split
  · rename_i isNegative
    rw [if_pos isNegative] at same
    have low : n * scale ≤ 0 := by omega
    have : n ≤ 0 := Int.nonpos_of_mul_nonpos_left low (by omega)
    omega
  · rename_i isPositive
    rw [if_neg isPositive] at same
    have high : 0 ≤ n * scale := by omega
    have : 0 ≤ n := Int.nonneg_of_mul_nonneg_left high (by omega)
    omega

/-- A cast to a range that has the value of the double gives that value. -/
theorem truncate64_of_denotes {bits : UInt64} {n low high : Int} (denotes : Denotes bits n)
    (above : low ≤ n) (below : n ≤ high) : truncate64 low high bits = n := by
  obtain ⟨finite, same⟩ := denotes
  obtain ⟨whole, signed⟩ := signed_of_scaled unitsPerOne_pos same
  simp only [truncate64, truncate]
  rw [if_neg (by exact finite), show 2 ^ (11 - 1) - 1 = 1023 from rfl, wholePart_of_units whole,
    show 11 + 52 = 63 from rfl, signed]
  omega

/-- An integer below `2 ^ 53` is the value of its double. -/
theorem denotes_ofNat {n : Nat} (small : n < 2 ^ 53) : Denotes (ofNat n) n := by
  by_cases zero : n = 0
  · subst zero
    refine ⟨by decide, ?_⟩
    rw [Int.natCast_zero, Int.zero_mul]
    rfl
  · have short : n.log2 ≤ 52 := by
      have log := (Nat.log2_lt zero).mpr small
      omega
    have least := Nat.log2_self_le zero
    have most : n < 2 ^ (n.log2 + 1) := (Nat.log2_lt zero).mp (Nat.lt_succ_self _)
    have leading : 2 ^ n.log2 * 2 ^ (52 - n.log2) = 2 ^ 52 := by
      rw [← Nat.pow_add, Nat.add_sub_cancel' short]
    have fraction : (n - 2 ^ n.log2) * 2 ^ (52 - n.log2) < 2 ^ 52 := by
      rw [← leading]
      exact Nat.mul_lt_mul_of_pos_right (by rw [Nat.pow_succ] at most; omega) (Nat.two_pow_pos _)
    have bits : (ofNat n).toNat =
        (n.log2 + 1023) * 2 ^ 52 + (n - 2 ^ n.log2) * 2 ^ (52 - n.log2) := by
      rw [ofNat, if_neg zero, UInt64.toNat_ofNat', magnitudeOfNat, if_pos short]
      exact Nat.mod_eq_of_lt (by omega)
    have exponent : (ofNat n).toNat / 2 ^ 52 % 2 ^ 11 = n.log2 + 1023 := by
      rw [bits]
      omega
    have significand : 2 ^ 52 + (ofNat n).toNat % 2 ^ 52 = n * 2 ^ (52 - n.log2) := by
      rw [show (ofNat n).toNat % 2 ^ 52 = (n - 2 ^ n.log2) * 2 ^ (52 - n.log2) by rw [bits]; omega,
        ← leading, ← Nat.add_mul, Nat.add_sub_cancel' least]
    have scaled : units (ofNat n) = n * unitsPerOne := by
      unfold units
      dsimp only
      rw [exponent, if_neg (by omega), significand, Nat.mul_assoc, ← Nat.pow_add,
        show 52 - n.log2 + (n.log2 + 1023) = 1075 by omega, unitsPerOne]
    refine ⟨?_, ?_⟩
    · rw [Finite, exponent]
      omega
    · rw [if_neg (by rw [bits]; omega), scaled, Int.natCast_mul]

end TptProto.Foundation.Ieee
