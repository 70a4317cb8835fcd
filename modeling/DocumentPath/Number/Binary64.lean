/-!
# Double-precision numbers

Numbers of the IEEE 754 binary64 format, kept as the 64 bits of their interchange form.  Every
operation here is exact integer arithmetic on the decoded fields followed by one rounding, so no
machine floating-point instruction takes part.

`Binary64` is the type of all such numbers and `Binary64.Finite` of those that are neither infinite
nor a NaN.  `Binary64.Format` describes a binary format by its precision and exponent range, and
`Format.round` rounds a quotient of naturals to it, to nearest with ties to even.  `ofRatio`,
`ofInt`, `mul`, `div` and `narrow` are that rounding applied to an exact value;
`Finite.truncate` is the integral part of a finite number as an exact integer.
-/

namespace DocumentPath

-- `^` stands for the built-in power, also next to that of a monoid
attribute [local instance (2000)] instPowNat

/-- A double-precision number, given by the 64 bits of its interchange form. -/
structure Binary64 where
  bits : UInt64
  deriving DecidableEq, Repr, Inhabited

namespace Binary64

/-! ### Fields of the interchange form -/

/-- The sign bit is the highest one. -/
def isNegative (x : Binary64) : Bool := decide (2 ^ (63 : Nat) ≤ x.bits.toNat)

/-- The eleven bits after the sign hold the biased exponent. -/
def exponentField (x : Binary64) : Nat := x.bits.toNat / 2 ^ (52 : Nat) % 2 ^ (11 : Nat)

/-- The low 52 bits hold the fraction. -/
def fractionField (x : Binary64) : Nat := x.bits.toNat % 2 ^ (52 : Nat)

/-- A number is finite unless its exponent field is all ones. -/
def isFinite (x : Binary64) : Bool := x.exponentField != 2047

/-- A NaN has an exponent field of all ones and a fraction that is not zero. -/
def isNaN (x : Binary64) : Bool := x.exponentField == 2047 && x.fractionField != 0

/-- The integer `m` of the magnitude `m · 2 ^ e` of a finite number; normal numbers have an
implicit leading bit. -/
def significand (x : Binary64) : Nat :=
  if x.exponentField = 0 then x.fractionField else 2 ^ (52 : Nat) + x.fractionField

/-- The exponent `e` of the magnitude `m · 2 ^ e` of a finite number. -/
def exponent (x : Binary64) : Int := (max x.exponentField 1 : Nat) - 1075

/-- The magnitude of a finite number as a quotient of naturals. -/
def ratio (x : Binary64) : Nat × Nat :=
  (x.significand * 2 ^ x.exponent.toNat, 2 ^ (-x.exponent).toNat)

/-- The positive or negative number of magnitude `m · 2 ^ e`, for a pair that the format can hold
as it stands. -/
def ofParts (negative : Bool) (m : Nat) (e : Int) : Binary64 :=
  let magnitude := if m < 2 ^ (52 : Nat) then m
    else (e + 1075).toNat * 2 ^ (52 : Nat) + (m - 2 ^ (52 : Nat))
  ⟨UInt64.ofNat (if negative then 2 ^ (63 : Nat) + magnitude else magnitude)⟩

/-- The infinity of the given sign. -/
def infinity (negative : Bool) : Binary64 := ofParts negative (2 ^ (52 : Nat)) 972

/-- The NaN whose fraction is the highest bit alone. -/
def nan : Binary64 := ⟨0x7FF8000000000000⟩

/-- The zero of the given sign. -/
def zero (negative : Bool) : Binary64 := ofParts negative 0 (-1074)

/-! ### Rounding -/

/-- A binary floating-point format: the number of bits of a significand, and the least and greatest
exponent of its last bit. -/
structure Format where
  precision : Nat
  minExponent : Int
  maxExponent : Int

/-- The binary64 format. -/
def Format.double : Format := ⟨53, -1074, 971⟩

/-- The binary32 format. -/
def Format.single : Format := ⟨24, -149, 104⟩

/-- The quotient of two naturals rounded to the nearest natural, a tie to the even one. -/
def roundDiv (num den : Nat) : Nat :=
  let q := num / den
  let r := num % den
  if den < 2 * r ∨ (2 * r = den ∧ q % 2 = 1) then q + 1 else q

/-- The quotient `num / (den · 2 ^ e)` as a numerator and a denominator. -/
def scaled (num den : Nat) (e : Int) : Nat × Nat :=
  (num * 2 ^ (-e).toNat, den * 2 ^ e.toNat)

/-- The greatest `k` with `2 ^ k ≤ num / den`, for positive `num` and `den`. -/
def floorLog2 (num den : Nat) : Int :=
  let k : Int := (num.log2 : Int) - den.log2
  let (n, d) := scaled num den k
  if d ≤ n then k else k - 1

/-- The number of the format nearest to a positive quotient, a tie going to the even significand,
as a significand and an exponent; absent when it is too large for the format. -/
def Format.round (f : Format) (num den : Nat) : Option (Nat × Int) :=
  let e := max (floorLog2 num den - (f.precision - 1 : Nat)) f.minExponent
  let (n, d) := scaled num den e
  let m := roundDiv n d
  let (m, e) := if m = 2 ^ f.precision then (2 ^ (f.precision - 1), e + 1) else (m, e)
  if f.maxExponent < e then none else some (m, e)

/-- The double nearest to a quotient of naturals, with the given sign. -/
def ofRatio (negative : Bool) (num den : Nat) : Binary64 :=
  if num = 0 then zero negative
  else
    match Format.double.round num den with
    | some (m, e) => ofParts negative m e
    | none => infinity negative

/-- The double nearest to an integer. -/
def ofInt (n : Int) : Binary64 := ofRatio (decide (n < 0)) n.natAbs 1

/-- The product of two finite numbers. -/
def mul (x y : Binary64) : Binary64 :=
  ofRatio (x.isNegative != y.isNegative) (x.ratio.1 * y.ratio.1) (x.ratio.2 * y.ratio.2)

/-- The quotient of a finite number by a finite number other than zero. -/
def div (x y : Binary64) : Binary64 :=
  ofRatio (x.isNegative != y.isNegative) (x.ratio.1 * y.ratio.2) (x.ratio.2 * y.ratio.1)

/-- The number of the opposite sign. -/
def neg (x : Binary64) : Binary64 := ⟨x.bits ^^^ 0x8000000000000000⟩

/-- The number rounded to single precision and widened again. -/
def narrow (x : Binary64) : Binary64 :=
  if x.isFinite = false ∨ x.significand = 0 then x
  else
    match Format.single.round x.ratio.1 x.ratio.2 with
    | some (m, e) => ofRatio x.isNegative (m * 2 ^ e.toNat) (2 ^ (-e).toNat)
    | none => infinity x.isNegative

/-! ### Finite numbers -/

/-- A double-precision number that is neither infinite nor a NaN. -/
structure Finite where
  val : Binary64
  isFinite_val : val.isFinite = true
  deriving DecidableEq, Repr

/-- The number as a finite one, if it is. -/
def finite? (x : Binary64) : Option Finite :=
  if h : x.isFinite = true then some ⟨x, h⟩ else none

/-- The integral part of a finite number: its fraction is dropped, so rounding is toward zero. -/
def Finite.truncate (x : Finite) : Int :=
  let magnitude : Nat := x.val.ratio.1 / x.val.ratio.2
  if x.val.isNegative then -(magnitude : Int) else magnitude

/-- The magnitude of the number is below the natural `bound`. -/
def Finite.absLt (x : Finite) (bound : Nat) : Bool :=
  decide (x.val.ratio.1 < bound * x.val.ratio.2)

@[simp] theorem finite?_val (x : Finite) : x.val.finite? = some x := by
  simp [finite?, x.isFinite_val]

end Binary64

end DocumentPath
