import DocumentPath.Number.Binary64

/-!
# Reading numbers from text

Two readings of plain text as a number, used wherever text is turned into a number by request.

`readInt?` takes an optional sign and decimal digits.  `readFloat?` takes an optional sign and either a
decimal with an optional point and an optional exponent, or one of the words `inf`, `infinity` and
`nan` in any case, and rounds the decimal once, to nearest.
-/

namespace DocumentPath

-- `^` stands for the built-in power, also next to that of a monoid
attribute [local instance (2000)] instPowNat

/-- The value of a decimal digit. -/
def digitValue (c : Char) : Nat := c.toNat - '0'.toNat

/-- The number written by decimal digits, the first one leading. -/
def ofDigits (cs : List Char) : Nat := cs.foldl (fun n c => n * 10 + digitValue c) 0

/-- An optional leading sign and the rest: whether it was a minus sign comes first. -/
def readSign : List Char → Bool × List Char
  | '-' :: rest => (true, rest)
  | '+' :: rest => (false, rest)
  | cs => (false, cs)

/-- The integer written as an optional sign and at least one decimal digit. -/
def readInt? (cs : List Char) : Option Int :=
  let (negative, digits) := readSign cs
  if digits ≠ [] ∧ digits.all Char.isDigit then
    some (if negative then -(ofDigits digits : Int) else ofDigits digits)
  else none

/-- The same text with ASCII letters in lower case. -/
def asciiLower (cs : List Char) : List Char := cs.map Char.toLower

namespace Binary64

/-- The double nearest to `digits · 10 ^ exponent`.  An exponent far outside the range of doubles is
decided without forming its power of ten. -/
def ofDecimal (negative : Bool) (digits : Nat) (exponent : Int) : Binary64 :=
  let places : Int := (toString digits).length
  if digits = 0 ∨ places + exponent < -400 then zero negative
  else if 400 < places + exponent then infinity negative
  else ofRatio negative (digits * 10 ^ exponent.toNat) (10 ^ (-exponent).toNat)

/-- The exponent part of a decimal: absent, or a mark followed by an integer. -/
def readExponent? : List Char → Option Int
  | [] => some 0
  | mark :: rest => if mark = 'e' ∨ mark = 'E' then readInt? rest else none

/-- An unsigned decimal: digits with an optional point among, before or after them, and an optional
exponent. -/
def readUnsigned? (negative : Bool) (cs : List Char) : Option Binary64 :=
  let whole := cs.takeWhile Char.isDigit
  let (fraction, rest) := match cs.dropWhile Char.isDigit with
    | '.' :: r => (r.takeWhile Char.isDigit, r.dropWhile Char.isDigit)
    | r => ([], r)
  if whole = [] ∧ fraction = [] then none
  else (readExponent? rest).map fun e =>
    ofDecimal negative (ofDigits (whole ++ fraction)) (e - fraction.length)

/-- The double written as a signed decimal, or as one of the words for infinity and NaN. -/
def readFloat? (cs : List Char) : Option Binary64 :=
  let (negative, body) := readSign cs
  let word := asciiLower body
  if word = "inf".toList ∨ word = "infinity".toList then some (infinity negative)
  else if word = "nan".toList then some nan
  else readUnsigned? negative body

end Binary64

end DocumentPath
