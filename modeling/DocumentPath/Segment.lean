import DocumentPath.Number.Reading

/-!
# Segments

One step of a path.  A segment is decided by its key alone: it names the entry of a map with that key,
and, when the key is the plain decimal text of an index, the element of an array at that index.  In the
text of a path a tilde in a key is written `~0` and a slash `~1`.
-/

namespace DocumentPath

-- `^` stands for the built-in power, also next to that of a monoid
attribute [local instance (2000)] instPowNat

/-- One step of a path. -/
structure Segment where
  key : String
  deriving DecidableEq, Repr

namespace Segment

/-- Indexes are below this bound. -/
def indexBound : Nat := 2 ^ (64 : Nat)

/-- The index written by a key: decimal digits without a leading zero, of a number in range. -/
def readIndex? (cs : List Char) : Option Nat :=
  if cs ≠ [] ∧ cs.all Char.isDigit ∧ (cs.length = 1 ∨ cs.head? ≠ some '0')
      ∧ ofDigits cs < indexBound then
    some (ofDigits cs)
  else none

/-- The array index that the segment names, if its key is one. -/
def index? (s : Segment) : Option Nat := readIndex? s.key.toList

/-- Whether the segment names an array index. -/
def isIndex (s : Segment) : Bool := s.index?.isSome

/-- The segment of an array index. -/
def ofIndex (i : Nat) : Segment := ⟨toString i⟩

/-- A character of a key as it is written in a path. -/
def escapeChar (c : Char) : List Char :=
  if c = '~' then ['~', '0'] else if c = '/' then ['~', '1'] else [c]

/-- The characters of the segment as it is written in a path. -/
def chars (s : Segment) : List Char := s.key.toList.flatMap escapeChar

/-- The segment as it is written in a path. -/
def text (s : Segment) : String := String.ofList s.chars

end Segment

end DocumentPath
