import DocumentPath.Json.Printer
import DocumentPath.Json.Reader
import DocumentPath.Text.Characters

/-!
# Scalars

A `Scalar` is a value that lives outside any tree: null, a boolean, a 64-bit integer, a double, or a
text.  `Scalar.display` writes it for a person and `Scalar.toText` as bare text; `Scalar.toJson` and
`Scalar.ofJson?` write it to and read it from JSON, where a float that JSON cannot hold becomes null.
A `Representation` is what a scalar can be asked to become in a tree.
-/

namespace DocumentPath

-- `^` stands for the built-in power, also next to that of a monoid
attribute [local instance (2000)] instPowNat

/-- A value that lives outside any tree. -/
inductive Scalar where
  | null
  | bool (b : Bool)
  | int (n : Int64)
  | float (x : Binary64)
  | text (s : String)
  deriving DecidableEq, Repr

/-- The representation in a tree that a scalar is asked to take. -/
inductive Representation where
  | native
  | text
  | integer
  | float
  | boolean
  | tree
  deriving DecidableEq, Repr

namespace Representation

/-- The name of a representation. -/
def name : Representation → String
  | .native => "native"
  | .text => "text"
  | .integer => "integer"
  | .float => "float"
  | .boolean => "boolean"
  | .tree => "tree"

/-- Every representation. -/
def all : List Representation := [native, text, integer, float, boolean, tree]

/-- The representation of a name. -/
def ofName? (s : String) : Option Representation := all.find? (·.name == s)

end Representation

namespace Scalar

/-- A displayed float is positional when its leading digit stands between 10⁻⁴ and 10¹⁵, leaves out
the plus sign of an exponent, and resolves ties upward. -/
def displayFloat : FloatLayout := ⟨-4, 15, false, .upward⟩

/-- The name of the scalar's type. -/
def typeName : Scalar → String
  | .null => "null"
  | .bool _ => "bool"
  | .int _ => "int"
  | .float _ => "float"
  | .text _ => "text"

/-- The scalar written for a person: texts are quoted. -/
def display : Scalar → String
  | .null => "null"
  | .bool b => if b then "true" else "false"
  | .int n => toString n.toInt
  | .float x => displayFloat.render x
  | .text s => quote s

/-- The scalar as bare text: texts stand as they are. -/
def toText : Scalar → String
  | .text s => s
  | v => v.display

/-- The scalar as a JSON value. -/
def toTree : Scalar → Tree
  | .null => .null
  | .bool b => .bool b
  | .int n => .number (.int n.toInt)
  | .float x => (x.finite?.map fun y => Tree.number (.float y)).getD .null
  | .text s => .text s

/-- The scalar of a number: an integer if it fits 64 bits with sign, and otherwise a float. -/
def ofNumber : Number → Scalar
  | .int n =>
    if -2 ^ (63 : Nat) ≤ n ∧ n < 2 ^ (63 : Nat) then .int (Int64.ofInt n) else .float (.ofInt n)
  | .float x => .float x.val

/-- The scalar that a JSON value writes; arrays, objects and strings that are no text write none. -/
def ofJson? : Json → Option Scalar
  | .null => some .null
  | .bool b => some (.bool b)
  | .number n => n.value?.map ofNumber
  | .text s => s.map .text
  | .array _ | .object _ => none

end Scalar

end DocumentPath
