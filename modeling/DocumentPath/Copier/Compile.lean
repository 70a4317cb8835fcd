import DocumentPath.Selector.Basic
import DocumentPath.Spec.CopySpec

/-!
# Compiling copy specs

The paths of a copy spec are compiled into lists that run parallel to those of the spec: `CopyPaths` has the
pointer of the target and for every source record its `RecordPaths`, the selectors of the includes in
effect, of the excludes, of the transforms and of the source.  Within a spec the target comes first; within
a record the includes come first, then the excludes, the transforms and the source.  The first path that
does not compile is reported under the name of its spec.

A `CompiledCopySpec` has every selector beside the filter or transform that it belongs to.
`CopySpec.pair` brings the parallel lists together so, and `Copier.ofSpecs` does it for a list of specs.
-/

namespace DocumentPath

/-- The compiled paths of a source record, in lists parallel to those of the record. -/
structure RecordPaths where
  source : Selector
  includes : List Selector
  excludes : List Selector
  transforms : List Selector

/-- The compiled paths of a copy spec, those of its records in a list parallel to the records. -/
structure CopyPaths where
  target : Pointer
  records : List RecordPaths

/-- A source record with its paths compiled. -/
structure CompiledRecord where
  /-- The path of the source as it was declared. -/
  path : String
  filter : Option Filter
  source : Selector
  includes : List (Selector × Option Filter)
  excludes : List Selector
  transforms : List (Selector × Transform)

/-- A copy spec with its paths compiled. -/
structure CompiledCopySpec where
  target : Pointer
  records : List CompiledRecord

/-- Copy specs ready to run; `fast` allows the shortcut of a descent that ends a path. -/
structure Copier where
  fast : Bool
  specs : List CompiledCopySpec

/-- The selectors of a list of paths. -/
def Selector.compileEach : List String → Compilation (List Selector)
  | [] => return []
  | path :: rest => do
    let s ← compileReporting path
    return s :: (← compileEach rest)

namespace SourceRecord

/-- The compiled paths of the record. -/
def compilePaths (r : SourceRecord) : Compilation RecordPaths := do
  let includes ← Selector.compileEach (Entries.keys r.includes)
  let excludes ← Selector.compileEach r.excludes
  let transforms ← Selector.compileEach (Entries.keys r.transforms)
  let source ← Selector.compileReporting r.path
  return ⟨source, includes, excludes, transforms⟩

/-- The compiled paths of the records. -/
def compileAll : List SourceRecord → Compilation (List RecordPaths)
  | [] => return []
  | r :: rest => do
    let paths ← r.compilePaths
    return paths :: (← compileAll rest)

/-- The record with every selector beside what it belongs to. -/
def pair (r : SourceRecord) (p : RecordPaths) : CompiledRecord :=
  ⟨r.path, r.filter, p.source, (r.includes.zip p.includes).map fun ((_, filter), s) => (s, filter),
    p.excludes, (r.transforms.zip p.transforms).map fun ((_, f), s) => (s, f)⟩

end SourceRecord

namespace CopySpec

/-- The compiled paths of the spec; success is reported, and an error names the spec. -/
def compilePaths (s : CopySpec) : Compilation CopyPaths :=
  ExceptT.adapt (PathError.specValidation s.text) do
    let target ← liftExcept (Pointer.parse s.target)
    let records ← SourceRecord.compileAll s.records
    Session.report (.compiledCopySpec s.text records.length)
    return ⟨target, records⟩

/-- The spec with every selector beside what it belongs to. -/
def pair (s : CopySpec) (p : CopyPaths) : CompiledCopySpec :=
  ⟨p.target, (s.records.zip p.records).map fun (r, p) => r.pair p⟩

/-- The spec with its paths compiled. -/
def compile (s : CopySpec) : Compilation CompiledCopySpec := s.pair <$> s.compilePaths

/-- The specs with their paths compiled. -/
def compileAll : List CopySpec → Compilation (List CompiledCopySpec)
  | [] => return []
  | s :: rest => do
    let compiled ← s.compile
    return compiled :: (← compileAll rest)

end CopySpec

namespace Copier

/-- The copier of a list of specs; success is reported. -/
def ofSpecs (fast : Bool) (specs : List CopySpec) : Compilation Copier := do
  let compiled ← CopySpec.compileAll specs
  Session.report (.copierReady compiled.length)
  return ⟨fast, compiled⟩

/-- The number of specs. -/
def size (c : Copier) : Nat := c.specs.length

end Copier

end DocumentPath
