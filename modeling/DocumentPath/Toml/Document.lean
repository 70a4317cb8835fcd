import DocumentPath.Entries
import DocumentPath.Number.Binary64

/-!
# Documents of tables

A configuration document is a list of `Statement`s: values under dotted keys, and headers that open a
table or one more element of an array of tables.  `Toml.ofStatements?` carries them out in order and
gives the fields of the root table.

A table remembers how it came about, for that decides what may still be added to it: a table that a
header opened may not be opened again, one that is only implied by the header of a table below it may be
opened once, one that dotted keys made may grow by dotted keys only, and an inline table may not grow at
all.
-/

namespace DocumentPath

/-- How a table came about. -/
inductive TableForm where
  /-- It is written as a value. -/
  | inline
  /-- It is opened by a header. -/
  | opened
  /-- It is on the way to a table that is opened by a header. -/
  | implied
  /-- It is on the way to a value under a dotted key. -/
  | dotted
  deriving DecidableEq, Repr

/-- A value of a document. -/
inductive Toml where
  | text (s : String)
  | integer (n : Int)
  | float (x : Binary64)
  | boolean (b : Bool)
  /-- A date, a time of day, or both, as it is written. -/
  | dateTime (s : String)
  | array (items : List Toml)
  | table (form : TableForm) (fields : List (String × Toml))
  /-- An array of tables that headers opened; the elements are given by their fields. -/
  | tables (elements : List (List (String × Toml)))
  deriving Repr, Inhabited

namespace Toml

/-- The fields of a table. -/
abbrev Fields := Entries String Toml

/-- A list with its last element changed; there must be one. -/
def changeLast {α : Type} (f : α → Option α) : List α → Option (List α)
  | [] => none
  | [a] => (f a).map fun a => [a]
  | a :: rest => (changeLast f rest).map (a :: ·)

/-! ### Dotted keys -/

/-- The fields with a value under a dotted key.  Tables on the way are made where they are absent.  The
flag says whether the fields may take the value itself: those of the table a statement stands in do, and
those of tables that dotted keys made. -/
def assign (v : Toml) : List String → Bool → Fields → Option Fields
  | [], _, _ => none
  | [k], mayTake, fields =>
    if mayTake && (Entries.get? fields k).isNone then some (Entries.insert fields k v) else none
  | k :: k' :: rest, _, fields =>
    match Entries.get? fields k with
    | none =>
      (assign v (k' :: rest) true []).map fun sub => Entries.insert fields k (.table .dotted sub)
    | some (.table form sub) =>
      if form = .dotted ∨ form = .implied then
        (assign v (k' :: rest) (form = .dotted) sub).map fun sub =>
          Entries.replace fields k (.table form sub)
      else none
    | some (.tables elements) =>
      (changeLast (assign v (k' :: rest) false) elements).map fun elements =>
        Entries.replace fields k (.tables elements)
    | some _ => none

/-! ### Headers -/

/-- The fields with the table that a list of keys leads to changed.  Tables on the way are implied where
they are absent; of an array of tables the last element is meant. -/
def within (f : Fields → Option Fields) : List String → Fields → Option Fields
  | [], fields => f fields
  | k :: rest, fields =>
    match Entries.get? fields k with
    | none => (within f rest []).map fun sub => Entries.insert fields k (.table .implied sub)
    | some (.table form sub) =>
      if form = .inline then none
      else (within f rest sub).map fun sub => Entries.replace fields k (.table form sub)
    | some (.tables elements) =>
      (changeLast (within f rest) elements).map fun elements =>
        Entries.replace fields k (.tables elements)
    | some _ => none

/-- Opens a table, which must be absent or merely implied. -/
def openTable (k : String) (fields : Fields) : Option Fields :=
  match Entries.get? fields k with
  | none => some (Entries.insert fields k (.table .opened []))
  | some (.table .implied sub) => some (Entries.replace fields k (.table .opened sub))
  | some _ => none

/-- Opens one more element of an array of tables, which may be absent. -/
def openElement (k : String) (fields : Fields) : Option Fields :=
  match Entries.get? fields k with
  | none => some (Entries.insert fields k (.tables [[]]))
  | some (.tables elements) => some (Entries.replace fields k (.tables (elements ++ [[]])))
  | some _ => none

/-! ### Statements -/

/-- One statement of a document. -/
inductive Statement where
  /-- A value under a dotted key of the table opened last. -/
  | pair (key : List String) (value : Toml)
  /-- The header of a table. -/
  | table (path : List String)
  /-- The header of an element of an array of tables. -/
  | element (path : List String)

/-- Runs a change of fields at a path, its last key apart. -/
def atHeader (f : String → Fields → Option Fields) (path : List String) (root : Fields) :
    Option Fields :=
  path.getLast?.bind fun k => within (f k) path.dropLast root

/-- Carries out statements, given the path of the table opened last and the fields of the root. -/
def carryOut : List Statement → List String → Fields → Option Fields
  | [], _, root => some root
  | .pair key value :: rest, path, root =>
    (within (assign value key true) path root).bind (carryOut rest path)
  | .table path :: rest, _, root => (atHeader openTable path root).bind (carryOut rest path)
  | .element path :: rest, _, root => (atHeader openElement path root).bind (carryOut rest path)

/-- The fields of the root table that a list of statements makes. -/
def ofStatements? (statements : List Statement) : Option Fields := carryOut statements [] []

end Toml

end DocumentPath
