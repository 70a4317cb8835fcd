import DocumentPath.Number.Binary64

/-!
# Shortest decimal text

The decimal of fewest digits that reads back as a given double, and its layout as text.

A decimal reads back as the double `m · 2 ^ e` exactly when it lies in the rounding interval of that
double, which `Interval` holds on an integer scale.  `shortest` walks the decimal grids from coarse to
fine; on each grid only the two points next to the value can lie in the interval unless no point does,
so the first grid with a hit gives the fewest digits.  Of two hits the nearer is taken, and a `Tie`
decides when they are equally near.  `FloatLayout` records where a format ends positional notation and
how it writes an exponent, and `FloatLayout.render` lays the digits out.
-/

namespace DocumentPath

-- `^` stands for the built-in power, also next to that of a monoid
attribute [local instance (2000)] instPowNat

/-- The decimal `digits · 10 ^ exponent`. -/
structure Decimal where
  digits : Nat
  exponent : Int
  deriving DecidableEq, Repr

/-- Which of two equally near decimals is taken: the one with an even last digit, or the greater. -/
inductive Tie where
  | toEven
  | upward
  deriving DecidableEq, Repr

namespace Binary64

/-! ### The rounding interval -/

/-- A value and the ends of its rounding interval, all in units of `2 ^ exponent`; the ends themselves
round to the value iff they are `closed`. -/
structure Interval where
  low : Nat
  value : Nat
  high : Nat
  exponent : Int
  closed : Bool

/-- The rounding interval of the magnitude of a finite number other than zero.  Below a power of two
the doubles are twice as dense, so the interval is shorter there. -/
def interval (x : Binary64) : Interval :=
  let m := x.significand
  let below := if m = 2 ^ (52 : Nat) ∧ 1 < x.exponentField then 1 else 2
  ⟨4 * m - below, 4 * m, 4 * m + 2, x.exponent - 2, m % 2 = 0⟩

/-- The interval measured in units of `10 ^ k`: a numerator for each bound over one denominator. -/
def Interval.onGrid (i : Interval) (k : Int) : (Nat × Nat × Nat) × Nat :=
  let up := 2 ^ i.exponent.toNat * 10 ^ (-k).toNat
  ((i.low * up, i.value * up, i.high * up), 2 ^ (-i.exponent).toNat * 10 ^ k.toNat)

/-- The number of grid steps of the point next to the value that lies in the interval, if one does. -/
def Interval.hit? (i : Interval) (tie : Tie) (k : Int) : Option Nat :=
  let ((low, value, high), den) := i.onGrid k
  let inside (c : Nat) : Bool :=
    if i.closed then decide (low ≤ c * den ∧ c * den ≤ high)
    else decide (low < c * den ∧ c * den < high)
  let c := value / den
  let nearer := value % den * 2
  match inside c && c != 0, inside (c + 1) with
  | false, false => none
  | true, false => some c
  | false, true => some (c + 1)
  | true, true =>
    if nearer < den then some c
    else if den < nearer then some (c + 1)
    else match tie with
      | .upward => some (c + 1)
      | .toEven => some (if c % 2 = 0 then c else c + 1)

/-! ### The search -/

/-- The first hit on the grids `10 ^ k`, `10 ^ (k - 1)` and so on, among as many as `fuel` allows. -/
def Interval.search (i : Interval) (tie : Tie) : Nat → Int → Decimal
  | 0, k => ⟨i.value, k⟩
  | fuel + 1, k =>
    match i.hit? tie k with
    | some c => ⟨c, k⟩
    | none => i.search tie fuel (k - 1)

/-- A power of ten above the magnitude of a number `m · 2 ^ e` other than zero. -/
def tenAbove (x : Binary64) : Int :=
  ((x.significand.log2 : Int) + 1 + x.exponent) * 30103 / 100000 + 1

/-- The decimal of fewest digits that reads back as the magnitude of a finite number other than zero.
Seventeen digits always suffice, so the search ends before its fuel does. -/
def shortest (tie : Tie) (x : Binary64) : Decimal := x.interval.search tie 24 x.tenAbove

end Binary64

/-! ### Layout -/

/-- How a format writes a floating-point number: the least and the greatest decimal exponent written
in positional notation, whether a positive exponent carries a plus sign, and its rule for ties. -/
structure FloatLayout where
  minPositional : Int
  maxPositional : Int
  plusSign : Bool
  tie : Tie

namespace FloatLayout

/-- Positional text of a decimal of `digits.length` digits and leading exponent `e`; a point and at
least one digit after it are always written. -/
def positional (digits : List Char) (e : Int) : List Char :=
  if e < 0 then
    '0' :: '.' :: (List.replicate (-e - 1).toNat '0' ++ digits)
  else
    let whole := e.toNat + 1
    let padded := digits ++ List.replicate (whole - digits.length) '0'
    padded.take whole ++ '.' :: (if digits.length ≤ whole then ['0'] else digits.drop whole)

/-- Text of a decimal with one digit before the point and an exponent. -/
def scientific (layout : FloatLayout) (digits : List Char) (e : Int) : List Char :=
  let mantissa := match digits with
    | d :: d' :: rest => d :: '.' :: d' :: rest
    | ds => ds
  let sign := if e < 0 then ['-'] else if layout.plusSign then ['+'] else []
  mantissa ++ 'e' :: sign ++ (toString e.natAbs).toList

/-- The shortest text of a number that reads back as it, in the given layout. -/
def render (layout : FloatLayout) (x : Binary64) : String :=
  if x.isNaN then "NaN"
  else
    let magnitude : String :=
      if x.isFinite = false then "inf"
      else if x.significand = 0 then "0.0"
      else
        let d := x.shortest layout.tie
        let digits := (toString d.digits).toList
        let e := d.exponent + digits.length - 1
        String.ofList <|
          if layout.minPositional ≤ e ∧ e ≤ layout.maxPositional then positional digits e
          else layout.scientific digits e
    if x.isNegative then "-" ++ magnitude else magnitude

end FloatLayout

end DocumentPath
