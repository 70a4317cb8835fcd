import DocumentPath.Scalar.Coercion

/-!
# Build specs

A `BuildSpec` says which values to place where in a destination: literal values, and values that are
looked up by a key when the spec is run.  A looked-up value replaces what stands at its path or is added
to the list there.

`BuildSpec.toTree` writes a spec as a JSON object and `BuildSpec.ofJson?` reads one.  Fields may be left
out where a default makes sense, unknown fields are ignored, and a known field that is repeated is
refused.  A record may also be written as the array of its fields, and a name as an object with that
single key and the value null.
-/

namespace DocumentPath

/-- How a looked-up value is placed. -/
inductive PutMode where
  /-- It replaces what stands at the path. -/
  | put
  /-- It is added to the list at the path. -/
  | add
  deriving DecidableEq, Repr

namespace PutMode

/-- The name of a mode. -/
def name : PutMode → String
  | .put => "put"
  | .add => "add"

/-- The mode of a name. -/
def ofName? (s : String) : Option PutMode := [put, add].find? (·.name == s)

/-- The mode as the title of an entry. -/
def title : PutMode → String
  | .put => "Put"
  | .add => "Add"

end PutMode

/-- A literal value and the path it is placed at. -/
structure LiteralEntry where
  value : Scalar
  into : String
  deriving DecidableEq, Repr

/-- A key to look up, the representation asked for, and the path the value is placed at. -/
structure PutEntry where
  mode : PutMode
  key : String
  representation : Option Representation
  into : String
  deriving DecidableEq, Repr

/-- A target path, the representation of entries that ask for none, and the entries. -/
structure BuildSpec where
  target : String := ""
  defaultRepresentation : Representation := .native
  literals : List LiteralEntry := []
  puts : List PutEntry := []
  deriving DecidableEq, Repr

namespace BuildSpec

/-- The representation that an entry of the spec takes. -/
def representationOf (s : BuildSpec) (e : PutEntry) : Representation :=
  e.representation.getD s.defaultRepresentation

/-- An entry on one line. -/
def entryText (e : PutEntry) : String :=
  e.mode.title ++ " '" ++ e.key ++ "' -> '" ++ e.into ++ "'"

/-- The spec on one line. -/
def text (s : BuildSpec) : String :=
  "BuildSpec\x7binto='" ++ s.target ++ "', defaultType=" ++ s.defaultRepresentation.name
    ++ ", literals=" ++ toString s.literals.length
    ++ ", puts=[" ++ ", ".intercalate (s.puts.map entryText) ++ "]\x7d"

/-! ### Chained construction -/

/-- The spec with another target. -/
def withTarget (s : BuildSpec) (path : String) : BuildSpec := { s with target := path }

/-- The spec with another default representation. -/
def withDefault (s : BuildSpec) (r : Representation) : BuildSpec :=
  { s with defaultRepresentation := r }

/-- The spec with one more literal. -/
def putValue (s : BuildSpec) (value : Scalar) (into : String) : BuildSpec :=
  { s with literals := s.literals ++ [⟨value, into⟩] }

/-- The spec with one more value to look up. -/
def lookUp (s : BuildSpec) (mode : PutMode) (key : String) (r : Option Representation)
    (into : String) : BuildSpec :=
  { s with puts := s.puts ++ [⟨mode, key, r, into⟩] }

/-! ### Writing -/

/-- A literal as a JSON object. -/
def literalTree (e : LiteralEntry) : Tree :=
  .map [("value", e.value.toTree), ("into", .text e.into)]

/-- A looked-up value as a JSON object. -/
def putTree (e : PutEntry) : Tree :=
  .map [("mode", .text e.mode.name), ("from", .text e.key),
    ("as_type", e.representation.elim .null fun r => .text r.name), ("into", .text e.into)]

/-- The spec as a JSON object. -/
def toTree (s : BuildSpec) : Tree :=
  .map [("target", .text s.target), ("default_type", .text s.defaultRepresentation.name),
    ("literals", .array (s.literals.map literalTree)), ("puts", .array (s.puts.map putTree))]

/-! ### Reading -/

/-- A text. -/
def readText? : Json → Option String
  | .text s => s
  | _ => none

/-- What a name stands for; an object with the name as its only key and the value null will do. -/
def readName? {α : Type} (ofName? : String → Option α) : Json → Option α
  | .text s => s.bind ofName?
  | .object [(s, .null)] => s.bind ofName?
  | _ => none

/-- A value that may be null. -/
def readOptional? {α : Type} (read? : Json → Option α) : Json → Option (Option α)
  | .null => some none
  | j => (read? j).map some

/-- An array of values. -/
def readList? {α : Type} (read? : Json → Option α) : Json → Option (List α)
  | .array items => items.mapM read?
  | _ => none

/-- The fields of a record of known names, each at most once: from an object, whose keys are texts and
whose unknown fields are ignored whatever they hold, or from an array that lists the fields in order. -/
def readRecord? (names : List String) : Json → Option (Entries String Json)
  | .object fields => do
    let fields ← fields.mapM fun (k, j) => k.map (·, j)
    let known := fields.filter fun (k, _) => names.contains k
    if (Entries.keys known).Nodup then some known else none
  | .array items => if items.length ≤ names.length then some (names.zip items) else none
  | _ => none

/-- The value of a field, or a default if the field is absent. -/
def readField? {α : Type} (fields : Entries String Json) (name : String) (absent : Option α)
    (read? : Json → Option α) : Option α :=
  match Entries.get? fields name with
  | some j => read? j
  | none => absent

/-- The literal that a JSON value writes. -/
def readLiteral? (j : Json) : Option LiteralEntry := do
  let fields ← readRecord? ["value", "into"] j
  return ⟨← readField? fields "value" none Scalar.ofJson?, ← readField? fields "into" none readText?⟩

/-- The looked-up value that a JSON value writes.  An object may leave out the representation. -/
def readPut? (j : Json) : Option PutEntry := do
  let fields ← readRecord? ["mode", "from", "as_type", "into"] j
  let mode ← readField? fields "mode" none (readName? PutMode.ofName?)
  let key ← readField? fields "from" none readText?
  let representation ←
    readField? fields "as_type" (some none) (readOptional? (readName? Representation.ofName?))
  let into ← readField? fields "into" none readText?
  return ⟨mode, key, representation, into⟩

/-- The spec that a JSON value writes. -/
def ofJson? (j : Json) : Option BuildSpec := do
  let fields ← readRecord? ["target", "default_type", "literals", "puts"] j
  let target ← readField? fields "target" (some "") readText?
  let representation ←
    readField? fields "default_type" (some .native) (readName? Representation.ofName?)
  let literals ← readField? fields "literals" (some []) (readList? readLiteral?)
  let puts ← readField? fields "puts" (some []) (readList? readPut?)
  return ⟨target, representation, literals, puts⟩

/-- The spec that a JSON text writes. -/
def ofText? (s : String) : Option BuildSpec := (Json.read? s).bind ofJson?

end BuildSpec

end DocumentPath
