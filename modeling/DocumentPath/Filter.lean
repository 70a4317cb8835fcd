import DocumentPath.Pointer.Basic
import DocumentPath.Text.Casing

/-!
# Filters

A `Filter` accepts or rejects a node.  It compares the node itself, or what it finds at a pointer below
the node, with an expectation; or it is a test of the caller's, or the negation of another filter.
-/

namespace DocumentPath

-- `^` stands for the built-in power, also next to that of a monoid
attribute [local instance (2000)] instPowNat

/-- What a node, or its absence, is compared with. -/
inductive Comparison where
  /-- The node's plain text is `value`, in any case if `ignoreCase`; no `value` asks for a node that is
  absent or null. -/
  | text (value : Option String) (ignoreCase : Bool)
  /-- The node is the boolean `expected`; anything else counts as false. -/
  | boolean (expected : Bool)

/-- The plain text of a node; null and containers have none. -/
def Tree.plainText : Tree → String
  | .text s => s
  | .number n => n.json
  | .bool b => if b then "true" else "false"
  | .null | .array _ | .map _ => ""

/-- Whether a comparison holds of a node or of its absence. -/
def Comparison.holds : Comparison → Option Tree → Bool
  | .text value ignoreCase, target =>
    match value, target.filter (· != .null) with
    | none, none => true
    | some expected, some node =>
      if ignoreCase then lowercase node.plainText == lowercase expected
      else node.plainText == expected
    | _, _ => false
  | .boolean expected, target =>
    (match target with
      | some (.bool b) => b
      | _ => false) == expected

/-- A decision about single nodes. -/
inductive Filter where
  | compare (pointer : Option Pointer) (comparison : Comparison)
  | test (p : Tree → Bool)
  | negate (f : Filter)

namespace Filter

/-- Whether the filter accepts a node. -/
def accepts : Filter → Tree → Bool
  | .compare pointer comparison, t =>
    comparison.holds (match pointer with
      | some p => p.at? t
      | none => some t)
  | .test p, t => p t
  | .negate f, t => !f.accepts t

/-- Accepts a node whose text at a path is `value`. -/
def textAt (path value : String) : Except PathError Filter :=
  (Pointer.parse path).map fun p => compare p (.text value false)

/-- Accepts a node whose text at a path is `value` in any case. -/
def textAtIgnoringCase (path value : String) : Except PathError Filter :=
  (Pointer.parse path).map fun p => compare p (.text value true)

/-- Accepts a node whose own text is `value`. -/
def ownText (value : String) : Filter := compare none (.text value false)

/-- Accepts a node whose boolean at a path is `value`. -/
def booleanAt (path : String) (value : Bool) : Except PathError Filter :=
  (Pointer.parse path).map fun p => compare p (.boolean value)

/-- Accepts a node with nothing but null at a path. -/
def absentAt (path : String) : Except PathError Filter :=
  (Pointer.parse path).map fun p => compare p (.text none false)

/-- Accepts a node that is null. -/
def absent : Filter := compare none (.text none false)

/-- Accepts a 64-bit integer greater than a bound. -/
def intAbove (bound : Int) : Filter :=
  test fun t => match t with
    | .number (.int n) => decide (n < 2 ^ (63 : Nat) ∧ bound < n)
    | _ => false

/-- Accepts a node of the kind of a name. -/
def ofKind (name : String) : Filter := test fun t => t.kind.name == name

end Filter

end DocumentPath
