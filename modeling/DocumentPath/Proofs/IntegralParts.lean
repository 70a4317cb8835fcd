import Mathlib
import DocumentPath.Transform

/-!
# Integral parts of doubles

Two operations turn a double into an integer by dropping its fraction: coercing a scalar, and converting a
node.  `Binary64.Finite.value` is the rational number that a finite double stands for, and the integer that
either of them forms is its integral part (`Binary64.Finite.truncate_eq`).  They differ where the integral
part does not fit 64 bits with sign, or only just does.

A conversion is exact or refused at a double (`ExactOrRefused`) if it gives the integral part when that fits,
and an error when it does not.  Coercion never refuses and comes to the nearest end of the range instead; the
conversion of nodes refuses what it has to, and the lowest integer of 64 bits as well.  `exactOrRefused_iff`
says where each is exact or refused.  From `2 ^ 53` on every double is an integer
(`Binary64.Finite.exists_int_eq_value`), so that the conversion of nodes errs at a single double.
-/

namespace DocumentPath

/-! ### Integral parts -/

/-- A rational number without its fraction. -/
def integralPart (q : ℚ) : ℤ := if 0 ≤ q then ⌊q⌋ else ⌈q⌉

/-- The integral part of a number that is not negative is its floor. -/
lemma integralPart_of_nonneg {q : ℚ} (hq : 0 ≤ q) : integralPart q = ⌊q⌋ := if_pos hq

/-- The integral part of the opposite is the opposite of the integral part. -/
lemma integralPart_neg (q : ℚ) : integralPart (-q) = -integralPart q := by
  unfold integralPart
  rcases lt_trichotomy q 0 with hq | rfl | hq
  · rw [if_pos (by linarith), if_neg (by linarith), Int.floor_neg]
  · simp
  · rw [if_neg (by linarith), if_pos hq.le, Int.ceil_neg]

/-- An integer is its own integral part. -/
@[simp] lemma integralPart_intCast (n : ℤ) : integralPart n = n := by
  unfold integralPart
  split
  · exact Int.floor_intCast n
  · exact Int.ceil_intCast n

/-- Dropping the fraction does not lead out of bounds. -/
lemma abs_integralPart_lt {q : ℚ} {n : ℤ} (h : |q| < n) : |integralPart q| < n := by
  wlog hq : 0 ≤ q generalizing q
  · rw [← abs_neg, ← integralPart_neg]
    exact this (by rwa [abs_neg]) (by linarith)
  · rw [abs_of_nonneg hq] at h
    rw [integralPart_of_nonneg hq, abs_of_nonneg (Int.floor_nonneg.mpr hq)]
    exact Int.floor_lt.mpr h

namespace Binary64

/-- The magnitude of a number as a power of two times its significand. -/
lemma ratio_div (x : Binary64) :
    (x.ratio.1 : ℚ) / x.ratio.2 = x.significand * 2 ^ x.exponent := by
  have hexponent : x.exponent = (x.exponent.toNat : ℤ) - ((-x.exponent).toNat : ℤ) :=
    (Int.toNat_sub_toNat_neg x.exponent).symm
  conv_rhs => rw [hexponent, zpow_sub₀ two_ne_zero, zpow_natCast, zpow_natCast]
  rw [ratio]
  push_cast
  ring

/-- The significand of a double has 53 bits. -/
lemma significand_lt (x : Binary64) : x.significand < 2 ^ 53 := by
  have hfraction : x.fractionField < 2 ^ 52 := Nat.mod_lt _ (by norm_num)
  unfold significand
  split <;> omega

namespace Finite

/-- The rational number that a finite double stands for. -/
def value (x : Finite) : ℚ :=
  let magnitude : ℚ := x.val.significand * 2 ^ x.val.exponent
  if x.val.isNegative then -magnitude else magnitude

/-- The magnitude of a double is the quotient of its ratio. -/
lemma abs_value (x : Finite) : |x.value| = (x.val.ratio.1 : ℚ) / x.val.ratio.2 := by
  have hnonneg : (0 : ℚ) ≤ x.val.significand * 2 ^ x.val.exponent := by positivity
  rw [ratio_div, value]
  split
  · rw [abs_neg, abs_of_nonneg hnonneg]
  · rw [abs_of_nonneg hnonneg]

/-- The ratio of a double has a positive denominator. -/
lemma ratio_snd_pos (x : Finite) : 0 < x.val.ratio.2 := by
  rw [ratio]
  positivity

/-- Truncating a double gives the integral part of the number that it stands for. -/
theorem truncate_eq (x : Finite) : x.truncate = integralPart x.value := by
  have hmagnitude : integralPart (x.val.significand * 2 ^ x.val.exponent)
      = ((x.val.ratio.1 / x.val.ratio.2 : ℕ) : ℤ) := by
    rw [← ratio_div, integralPart_of_nonneg (by positivity), Rat.floor_natCast_div_natCast,
      Int.natCast_div]
  unfold truncate value
  split
  · rw [integralPart_neg, hmagnitude]
  · rw [hmagnitude]

/-- Comparing the ratio of a double with a bound compares its magnitude. -/
lemma absLt_iff (x : Finite) (bound : ℕ) : x.absLt bound = true ↔ |x.value| < bound := by
  have hpos : (0 : ℚ) < x.val.ratio.2 := by exact_mod_cast x.ratio_snd_pos
  rw [absLt, decide_eq_true_eq, abs_value, div_lt_iff₀ hpos]
  exact_mod_cast Iff.rfl

/-- From `2 ^ 53` on a double has no fraction. -/
theorem exists_int_eq_value {x : Finite} (h : 2 ^ 53 ≤ |x.value|) : ∃ n : ℤ, x.value = n := by
  have hsignificand : (x.val.significand : ℚ) < 2 ^ 53 := by exact_mod_cast x.val.significand_lt
  have hexponent : 0 ≤ x.val.exponent := by
    by_contra hneg
    have hle : (2 : ℚ) ^ x.val.exponent ≤ 1 :=
      zpow_le_one_of_nonpos₀ one_le_two (not_le.mp hneg).le
    have : (x.val.significand : ℚ) * 2 ^ x.val.exponent ≤ x.val.significand :=
      mul_le_of_le_one_right (Nat.cast_nonneg _) hle
    rw [abs_value, ratio_div] at h
    linarith
  obtain ⟨k, hk⟩ := Int.eq_ofNat_of_zero_le hexponent
  have hmagnitude : (x.val.significand : ℚ) * 2 ^ x.val.exponent
      = ((x.val.significand * 2 ^ k : ℤ) : ℚ) := by
    rw [hk, zpow_natCast]
    push_cast
    rfl
  unfold value
  split
  · exact ⟨-(x.val.significand * 2 ^ k), by rw [hmagnitude, Int.cast_neg]⟩
  · exact ⟨_, hmagnitude⟩

end Finite

end Binary64

/-! ### Conversions to integers -/

/-- A conversion to the integer `n` is exact or refused: it gives `n` if `n` fits 64 bits with sign, and
otherwise an error that says so. -/
def ExactOrRefused (n : ℤ) (result : Except PathError Tree) : Prop :=
  if -2 ^ 63 ≤ n ∧ n < 2 ^ 63 then result = .ok (.ofInt n)
  else ∃ shown, result = .error (.unsupportedCoercion shown .integer)

namespace Scalar

/-- Coercing a double to an integer gives the integer of 64 bits nearest to its integral part. -/
lemma coerce_float_integer (x : Binary64.Finite) :
    (Scalar.float x.val).coerce .integer = .ok (.ofInt (clampInt64 (integralPart x.value))) := by
  rw [coerce, coerce?, Binary64.finite?_val, ← x.truncate_eq]
  rfl

/-- Coercion is exact or refused where the integral part fits. -/
theorem exactOrRefused_coerce_iff (x : Binary64.Finite) :
    ExactOrRefused (integralPart x.value) ((Scalar.float x.val).coerce .integer) ↔
      -2 ^ 63 ≤ integralPart x.value ∧ integralPart x.value < 2 ^ 63 := by
  rw [coerce_float_integer, ExactOrRefused]
  generalize integralPart x.value = n
  split
  · next hfits =>
    have hclamp : clampInt64 n = n := by
      unfold clampInt64
      omega
    exact iff_of_true (by rw [hclamp]) hfits
  · next hout => exact iff_of_false (fun ⟨_, hrefused⟩ => absurd hrefused (by simp)) hout

end Scalar

namespace Conversion

/-- Converting a double to an integer gives its integral part below `2 ^ 63` in magnitude, and is refused
from there on. -/
lemma apply_toInt64_ofFloat (x : Binary64.Finite) : toInt64.apply (.ofFloat x) =
    if |x.value| < 2 ^ 63 then .ok (.ofInt (integralPart x.value))
    else .error (.unsupportedCoercion (Tree.ofFloat x).json .integer) := by
  have hbound : (x.absLt (2 ^ 63) = true) ↔ |x.value| < 2 ^ 63 := by
    rw [x.absLt_iff]
    norm_num
  have hconvert : toInt64.convert? (.ofFloat x) = (integral? x).map .ofInt := rfl
  rw [apply, if_neg Tree.noConfusion, hconvert, integral?, ← x.truncate_eq]
  by_cases h : |x.value| < 2 ^ 63
  · rw [if_pos (hbound.mpr h), if_pos h]
    rfl
  · rw [if_neg (mt hbound.mp h), if_neg h]
    rfl

/-- The conversion of nodes is exact or refused at every double but the lowest integer of 64 bits. -/
theorem exactOrRefused_toInt64_iff (x : Binary64.Finite) :
    ExactOrRefused (integralPart x.value) (toInt64.apply (.ofFloat x)) ↔ x.value ≠ -2 ^ 63 := by
  rw [apply_toInt64_ofFloat, ExactOrRefused]
  by_cases h : |x.value| < 2 ^ 63
  · have hbounds : |integralPart x.value| < 2 ^ 63 := abs_integralPart_lt (by exact_mod_cast h)
    obtain ⟨hlow, hhigh⟩ := abs_lt.mp hbounds
    rw [if_pos h, if_pos ⟨hlow.le, hhigh⟩]
    exact iff_of_true rfl (abs_lt.mp h).1.ne'
  · -- so far from zero the double is an integer, and the lowest one of 64 bits is the only one to fit
    obtain ⟨m, hm⟩ := Binary64.Finite.exists_int_eq_value (le_trans (by norm_num) (not_lt.mp h))
    have hfar : m ≤ -2 ^ 63 ∨ 2 ^ 63 ≤ m := by
      rw [hm] at h
      exact le_abs'.mp (by exact_mod_cast not_lt.mp h)
    have hlowest : (m : ℚ) = -2 ^ 63 ↔ m = -2 ^ 63 := by exact_mod_cast Iff.rfl
    rw [if_neg h, hm, integralPart_intCast, ne_eq, hlowest]
    split
    · next hfits =>
      exact iff_of_false (fun hexact => absurd hexact (by simp)) (not_not.mpr (by omega))
    · next hout => exact iff_of_true ⟨_, rfl⟩ (by omega)

end Conversion

/-- What becomes of a finite double as an integer.  Coercion gives the integer of 64 bits nearest to the
integral part: it is exact where that fits, and nowhere refuses.  The conversion of nodes gives the integral
part or refuses: it is exact or refused at every double but `-2 ^ 63`, which fits and is refused. -/
theorem exactOrRefused_iff (x : Binary64.Finite) :
    let n := integralPart x.value
    let coerced := (Scalar.float x.val).coerce .integer
    let converted := Conversion.toInt64.apply (.ofFloat x)
    coerced = .ok (.ofInt (max (-2 ^ 63) (min n (2 ^ 63 - 1)))) ∧
      (converted = if |x.value| < 2 ^ 63 then .ok (.ofInt n)
        else .error (.unsupportedCoercion (Tree.ofFloat x).json .integer)) ∧
      (ExactOrRefused n coerced ↔ -2 ^ 63 ≤ n ∧ n < 2 ^ 63) ∧
      (ExactOrRefused n converted ↔ x.value ≠ -2 ^ 63) :=
  ⟨Scalar.coerce_float_integer x, Conversion.apply_toInt64_ofFloat x,
    Scalar.exactOrRefused_coerce_iff x, Conversion.exactOrRefused_toInt64_iff x⟩

/-- Coercing `2 ^ 63`, which does not fit, gives `2 ^ 63 - 1`, and converting `-2 ^ 63`, which fits, is
refused. -/
theorem not_exactOrRefused_bounds :
    let above : Binary64.Finite := ⟨⟨0x43E0000000000000⟩, by decide⟩
    let lowest : Binary64.Finite := ⟨⟨0xC3E0000000000000⟩, by decide⟩
    (above.value = 2 ^ 63 ∧
      ¬ ExactOrRefused (integralPart above.value) ((Scalar.float above.val).coerce .integer)) ∧
    lowest.value = -2 ^ 63 ∧
      ¬ ExactOrRefused (integralPart lowest.value) (Conversion.toInt64.apply (.ofFloat lowest)) := by
  intro above lowest
  have habove : above.value = 2 ^ 63 := by
    have hsignificand : above.val.significand = 2 ^ 52 := by decide
    have hexponent : above.val.exponent = 11 := by decide
    have hsign : above.val.isNegative = false := by decide
    rw [Binary64.Finite.value, hsignificand, hexponent, hsign]
    norm_num
  have hlowest : lowest.value = -2 ^ 63 := by
    have hsignificand : lowest.val.significand = 2 ^ 52 := by decide
    have hexponent : lowest.val.exponent = 11 := by decide
    have hsign : lowest.val.isNegative = true := by decide
    rw [Binary64.Finite.value, hsignificand, hexponent, hsign]
    norm_num
  refine ⟨⟨habove, ?_⟩, hlowest, ?_⟩
  · have hpart : integralPart above.value = 2 ^ 63 := by
      have hpower := integralPart_intCast ((2 : ℤ) ^ 63)
      push_cast at hpower
      rwa [habove]
    rw [Scalar.exactOrRefused_coerce_iff, hpart]
    norm_num
  · rw [Conversion.exactOrRefused_toInt64_iff]
    exact not_not.mpr hlowest

end DocumentPath
