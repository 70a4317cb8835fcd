import DocumentPath.Error
import DocumentPath.Number.Reading
import DocumentPath.Text.Characters

/-!
# Coercion of scalars

`Scalar.coerce` gives a scalar the representation in a tree that is asked for, or refuses.  Null stays
null under every representation.  Text is trimmed of blanks before it is read as a number or a boolean;
a float becomes an integer by dropping its fraction, and one out of the range of 64 bits becomes the
nearest end of that range.
-/

namespace DocumentPath

-- `^` stands for the built-in power, also next to that of a monoid
attribute [local instance (2000)] instPowNat

/-- The 64-bit integer nearest to an integer. -/
def clampInt64 (n : Int) : Int := max (-2 ^ (63 : Nat)) (min n (2 ^ (63 : Nat) - 1))

/-- The integer, if it fits 64 bits with sign. -/
def inInt64? (n : Int) : Option Int :=
  if -2 ^ (63 : Nat) ≤ n ∧ n < 2 ^ (63 : Nat) then some n else none

/-- The 64-bit integer that a text writes, blanks around it aside. -/
def readInt64? (s : String) : Option Int := (readInt? (trimBlank s.toList)).bind inInt64?

/-- The finite double that a text writes, blanks around it aside. -/
def readFinite? (s : String) : Option Binary64.Finite :=
  (Binary64.readFloat? (trimBlank s.toList)).bind Binary64.finite?

/-- The boolean that a text writes in ASCII letters of any case, blanks around it aside. -/
def readBool? (s : String) : Option Bool :=
  let word := asciiLower (trimBlank s.toList)
  if word = "true".toList then some true
  else if word = "false".toList then some false
  else none

/-- The node of an integer. -/
def Tree.ofInt (n : Int) : Tree := .number (.int n)

/-- The node of a finite float. -/
def Tree.ofFloat (x : Binary64.Finite) : Tree := .number (.float x)

namespace Scalar

/-- The node that represents a scalar as asked, if it can be represented so. -/
def coerce? : Scalar → Representation → Option Tree
  | .null, _ => some .null
  | .bool b, .native => some (.bool b)
  | .int n, .native => some (.ofInt n.toInt)
  | .float x, .native => x.finite?.map .ofFloat
  | .text s, .native => some (.text s)
  | v, .text => some (.text v.toText)
  | .int n, .integer => some (.ofInt n.toInt)
  | .float x, .integer => x.finite?.map fun y => .ofInt (clampInt64 y.truncate)
  | .text s, .integer => (readInt64? s).map .ofInt
  | .int n, .float => (Binary64.ofInt n.toInt).finite?.map .ofFloat
  | .float x, .float => x.finite?.map .ofFloat
  | .text s, .float => (readFinite? s).map .ofFloat
  | .bool b, .boolean => some (.bool b)
  | .text s, .boolean => (readBool? s).map .bool
  | .text s, .tree => Tree.ofJson? s
  | _, _ => none

/-- The node that represents a scalar as asked, or an error that names both. -/
def coerce (v : Scalar) (r : Representation) : Except PathError Tree :=
  match v.coerce? r with
  | some t => .ok t
  | none => .error (.unsupportedCoercion v.display r)

end Scalar

end DocumentPath
