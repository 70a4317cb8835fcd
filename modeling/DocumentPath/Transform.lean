import DocumentPath.Scalar.Coercion

/-!
# Transforms

A `Transform` replaces a matched node by its image.  A `Conversion` turns a scalar node into a text or a
number, reading texts; a `TextReplacement` writes a fixed text over a text, and a named one takes its
text anew from the arguments of each run.  Null is left alone by every conversion.  Any function of the
caller's may be a transform as well, and may refuse a node with an error of its own.
-/

namespace DocumentPath

-- `^` stands for the built-in power, also next to that of a monoid
attribute [local instance (2000)] instPowNat

/-- The arguments of a run, by name. -/
abbrev Arguments := String → Option Scalar

/-! ### Conversions -/

/-- The conversions of scalar nodes. -/
inductive Conversion where
  | toText
  | toDouble
  | toSingle
  | toInt64
  | toInt32
  deriving DecidableEq, Repr

namespace Conversion

/-- The representation that a conversion names when it fails. -/
def target : Conversion → Representation
  | .toText => .text
  | .toDouble | .toSingle => .float
  | .toInt64 | .toInt32 => .integer

/-- The double of a number, rounded to nearest if it is an integer. -/
def doubleOf : Number → Option Binary64.Finite
  | .int n => (Binary64.ofInt n).finite?
  | .float x => some x

/-- The double that a scalar node stands for. -/
def double? : Tree → Option Binary64.Finite
  | .number n => doubleOf n
  | .text s => readFinite? s
  | _ => none

/-- The integral part of a double, if its magnitude is below `2 ^ 63`. -/
def integral? (x : Binary64.Finite) : Option Int :=
  if x.absLt (2 ^ (63 : Nat)) then some x.truncate else none

/-- The 64-bit integer that a scalar node stands for; the fraction of a float is dropped. -/
def int64? : Tree → Option Int
  | .number (.int n) => (inInt64? n).or ((doubleOf (.int n)).bind integral?)
  | .number (.float x) => integral? x
  | .text s => (readInt64? s).or ((readFinite? s).bind integral?)
  | _ => none

/-- The image of a node other than null, if the node can be converted. -/
def convert? : Conversion → Tree → Option Tree
  | .toText, .text s => some (.text s)
  | .toText, .number n => some (.text n.json)
  | .toText, .bool b => some (.text (if b then "true" else "false"))
  | .toText, _ => none
  | .toDouble, t => (double? t).map .ofFloat
  | .toSingle, t => ((double? t).bind fun x => x.val.narrow.finite?).map .ofFloat
  | .toInt64, t => (int64? t).map .ofInt
  | .toInt32, t => (int64? t).bind fun n =>
    if -2 ^ (31 : Nat) ≤ n ∧ n < 2 ^ (31 : Nat) then some (.ofInt n) else none

/-- The image of a node. -/
def apply (c : Conversion) (t : Tree) : Except PathError Tree :=
  if t = .null then .ok .null
  else
    match c.convert? t with
    | some image => .ok image
    | none => .error (.unsupportedCoercion t.json c.target)

end Conversion

/-! ### Text replacements -/

/-- Writes a text over a text.  A named replacement takes the text from the argument of that name, or
else from its default. -/
structure TextReplacement where
  name : Option String
  fallback : Option String
  text : Option String
  deriving DecidableEq, Repr

namespace TextReplacement

/-- Always writes the same text. -/
def fixed (text : String) : TextReplacement := ⟨none, none, some text⟩

/-- Writes the argument of a name, or the default when it is not given. -/
def named (name : String) (fallback : Option String) : Except PathError TextReplacement :=
  if name = "" then .error (.invalidOperation "" "transform name may not be empty")
  else .ok ⟨some name, fallback, fallback⟩

/-- The image of a node: only a text can be replaced, and without a text to write it becomes null. -/
def apply (r : TextReplacement) (t : Tree) : Except PathError Tree :=
  match t with
  | .text _ => .ok (r.text.elim .null .text)
  | t => .error (.invalidOperation t.json "can only replace a text node")

/-- The replacement with its text taken anew from the arguments of a run; a null argument leaves no
text to write. -/
def reset (r : TextReplacement) (arguments : Arguments) : TextReplacement :=
  match r.name with
  | none => r
  | some name =>
    { r with text := match arguments name with
        | some .null => none
        | some v => some v.toText
        | none => r.fallback }

end TextReplacement

/-! ### Transforms -/

/-- A replacement of matched nodes by their images. -/
inductive Transform where
  | convert (c : Conversion)
  | replaceText (r : TextReplacement)
  | function (f : Tree → Except PathError Tree)

namespace Transform

/-- The image of a node. -/
def apply : Transform → Tree → Except PathError Tree
  | .convert c, t => c.apply t
  | .replaceText r, t => r.apply t
  | .function f, t => f t

/-- Whether the transform depends on the arguments of a run. -/
def isResettable : Transform → Bool
  | .replaceText r => r.name.isSome
  | _ => false

/-- The transform as it is for the arguments of a run. -/
def reset (arguments : Arguments) : Transform → Transform
  | .replaceText r => .replaceText (r.reset arguments)
  | f => f

/-- Puts every node under a key of a map of its own. -/
def wrap (key : String) : Transform := function fun t => .ok (.map [(key, t)])

/-- Replaces every node by the same tree. -/
def constant (image : Tree) : Transform := function fun _ => .ok image

end Transform

end DocumentPath
