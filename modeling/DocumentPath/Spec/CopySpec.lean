import DocumentPath.Filter
import DocumentPath.Transform

/-!
# Copy specs

A `CopySpec` says what to copy where: a target path in the destination and, for every source path, one
`SourceRecord` of what is included, excluded and transformed.  A spec is built from a list of
`Declaration`s, in order; each adds to the record of the source path it names, which is created at the
first mention.  `CopySpec.build` refuses a second filter for one source path.
-/

namespace DocumentPath

/-- Everything declared about one source path. -/
structure SourceRecord where
  path : String
  filter : Option Filter := none
  declared : Entries String (Option Filter) := []
  excludes : List String := []
  transforms : Entries String Transform := []

/-- A target path in the destination, and the source records in the order of first mention. -/
structure CopySpec where
  target : String := ""
  records : List SourceRecord := []

/-- One statement about a copy spec. -/
inductive Declaration where
  /-- Copy into a path of the destination. -/
  | target (path : String)
  /-- Copy what a source path matches. -/
  | source (path : String)
  /-- Copy what a source path matches and a filter accepts. -/
  | sourceFiltered (path : String) (filter : Filter)
  /-- Of each match of a source path, copy these paths below it. -/
  | including (path : String) (includes : List String)
  /-- Of each match of a source path, copy a path below it where a filter accepts it. -/
  | includingFiltered (path included : String) (filter : Filter)
  /-- After each match of a source path is copied, remove these paths from the destination. -/
  | excluding (path : String) (excludes : List String)
  /-- After each match of a source path is copied, transform a path of the destination. -/
  | transforming (path value : String) (transform : Transform)

namespace Declaration

/-- Of the whole source, copy these paths. -/
def includingRoot (includes : List String) : Declaration := .including "" includes

/-- Of the whole source, copy a path where a filter accepts it. -/
def includingRootFiltered (included : String) (filter : Filter) : Declaration :=
  .includingFiltered "" included filter

/-- After the whole source is copied, remove these paths from the destination. -/
def excludingRoot (excludes : List String) : Declaration := .excluding "" excludes

/-- After the whole source is copied, transform a path of the destination. -/
def transformingRoot (value : String) (transform : Transform) : Declaration :=
  .transforming "" value transform

end Declaration

namespace SourceRecord

/-- The includes in effect: if none is declared, the whole match under the filter of the record. -/
def includes (r : SourceRecord) : Entries String (Option Filter) :=
  if r.declared.isEmpty then [("", r.filter)] else r.declared

/-- The record with its transforms as they are for the arguments of a run. -/
def reset (arguments : Arguments) (r : SourceRecord) : SourceRecord :=
  { r with transforms := r.transforms.map fun (path, f) => (path, f.reset arguments) }

/-- The record on one line. -/
def text (r : SourceRecord) : String :=
  "From\x7bfrom='" ++ r.path ++ "', filtered=" ++ (if r.filter.isSome then "true" else "false")
    ++ ", includes=" ++ quoteList (Entries.keys r.declared)
    ++ ", excludes=" ++ quoteList r.excludes
    ++ ", transforms=" ++ quoteList (Entries.keys r.transforms) ++ "\x7d"

end SourceRecord

namespace CopySpec

/-- The spec on one line. -/
def text (s : CopySpec) : String :=
  "CopySpec\x7binto='" ++ s.target ++ "', from=["
    ++ ", ".intercalate (s.records.map SourceRecord.text) ++ "]\x7d"

/-- The spec with its transforms as they are for the arguments of a run. -/
def reset (arguments : Arguments) (s : CopySpec) : CopySpec :=
  { s with records := s.records.map (SourceRecord.reset arguments) }

/-- Whether any transform depends on the arguments of a run. -/
def isResettable (s : CopySpec) : Bool :=
  s.records.any fun r => r.transforms.any fun (_, f) => f.isResettable

/-! ### Building -/

/-- A spec under construction, and the first error met. -/
structure Draft where
  spec : CopySpec := {}
  error : Option PathError := none

/-- The records with the one of a source path changed, and created before if it is absent. -/
def changeRecord (path : String) (f : SourceRecord → SourceRecord) :
    List SourceRecord → List SourceRecord
  | [] => [f { path }]
  | r :: rest => if r.path = path then f r :: rest else r :: changeRecord path f rest

/-- The record of a source path already has a filter. -/
def hasFilter (s : CopySpec) (path : String) : Bool :=
  s.records.any fun r => r.path == path && r.filter.isSome

namespace Draft

/-- The draft with the record of a source path changed. -/
def change (d : Draft) (path : String) (f : SourceRecord → SourceRecord) : Draft :=
  { d with spec := { d.spec with records := changeRecord path f d.spec.records } }

/-- The draft with an error noted; the first one stands. -/
def refuse (d : Draft) (e : PathError) : Draft := { d with error := d.error.or (some e) }

/-- The reason for refusing a second filter of one source path. -/
def secondFilter : String := "may only have one filter per from path"

/-- The draft after one more declaration. -/
def declare (d : Draft) : Declaration → Draft
  | .target path => { d with spec := { d.spec with target := path } }
  | .source path => d.change path id
  | .sourceFiltered path filter =>
    if d.spec.hasFilter path then d.refuse (.invalidOperation path secondFilter)
    else d.change path fun r => { r with filter := some filter }
  | .including path includes =>
    d.change path fun r =>
      { r with declared := includes.foldl (fun es p => Entries.insert es p none) r.declared }
  | .includingFiltered path included filter =>
    d.change path fun r => { r with declared := Entries.insert r.declared included (some filter) }
  | .excluding path excludes => d.change path fun r => { r with excludes := r.excludes ++ excludes }
  | .transforming path value f =>
    d.change path fun r => { r with transforms := Entries.insert r.transforms value f }

/-- The finished spec, or the first error met. -/
def finish (d : Draft) : Except PathError CopySpec :=
  match d.error with
  | some e => .error e
  | none => .ok d.spec

end Draft

/-- The spec that a list of declarations makes. -/
def build (declarations : List Declaration) : Except PathError CopySpec :=
  (declarations.foldl Draft.declare {}).finish

end CopySpec

end DocumentPath
