import DocumentPath.Copier.Run

/-!
# Copiers of decorated specs

A `CopyDecorator` owns a copy spec and compiles its paths when they are first asked for; what comes of that,
success or failure, is kept for good.  The compiled paths stay in lists apart from the spec, whose
transforms may be reset in the meantime, and every run zips the two anew.

`DecoratedCopier.ofSpecs` has every spec compiled, so that the first path that does not compile is found
before anything is copied.  `DecoratedCopier.paired` is the copier that holds the lists brought together.
-/

namespace DocumentPath

/-- A copy spec, and what its paths have been compiled to if that has been asked for. -/
structure CopyDecorator where
  spec : CopySpec
  memo : Option (Except PathError CopyPaths) := none

/-- Decorated copy specs; `fast` allows the shortcut of a descent that ends a path. -/
structure DecoratedCopier where
  fast : Bool
  specs : List CopyDecorator

/-! ### Records -/

namespace SourceRecord

/-- Copies the includes in effect from one match. -/
def copyIncludes (r : SourceRecord) (p : RecordPaths) (fast : Bool) (value t : Tree) :
    Outcome PathError :=
  .sequence t ((r.includes.zip p.includes).map fun ((_, filter), s) => s.copy fast value filter)

/-- Applies the transforms. -/
def transform (r : SourceRecord) (p : RecordPaths) (t : Tree) : Outcome PathError :=
  .sequence t ((r.transforms.zip p.transforms).map fun ((_, f), s) => s.apply f.apply)

/-- Carries out the record for one match of its source. -/
def copyMatch (r : SourceRecord) (p : RecordPaths) (fast : Bool) (value t : Tree) :
    Run (Outcome PathError) :=
  if r.filter.all (·.accepts value) then
    let o := r.copyIncludes p fast value t
    match o.error with
    | some _ => return o
    | none => do
      let t ← CompiledRecord.removeExcluded p.excludes o.tree
      return r.transform p t
  else return .ok t

/-- Carries out the record for every match of its source, whose number is reported. -/
def copy (fast : Bool) (source : Tree) (r : SourceRecord) (p : RecordPaths) (t : Tree) :
    Run (Outcome PathError) := do
  let found := p.source.all source
  Session.report (.copySource r.path found.length)
  Run.each (r.copyMatch p fast) found t

end SourceRecord

/-! ### Specs -/

namespace CopyDecorator

/-- The compiled paths: those kept, or those that the paths of the spec are compiled to now, which are then
kept. -/
def compiled (d : CopyDecorator) : Run (Except PathError CopyPaths × CopyDecorator) :=
  match d.memo with
  | some result => return (result, d)
  | none => do
    let result ← d.spec.compilePaths.run
    return (result, { d with memo := some result })

/-- Every source record beside its compiled paths. -/
def records (d : CopyDecorator) :
    Run (Except PathError (List (SourceRecord × RecordPaths)) × CopyDecorator) := do
  let (compiled, d) ← d.compiled
  return (compiled.map fun paths => d.spec.records.zip paths.records, d)

/-- Has the paths compiled. -/
def verify (d : CopyDecorator) : Compilation CopyDecorator := do
  let (compiled, d) ← d.compiled
  let _ ← liftExcept compiled
  return d

/-- The decorators with the paths of each compiled. -/
def verifyAll : List CopyDecorator → Compilation (List CopyDecorator)
  | [] => return []
  | d :: rest => do
    let verified ← d.verify
    return verified :: (← verifyAll rest)

/-- The decorator with its transforms as they are for the arguments of a run; what is kept stays. -/
def reset (arguments : Arguments) (d : CopyDecorator) : CopyDecorator :=
  { d with spec := d.spec.reset arguments }

/-- Runs the spec on a source and a destination. -/
def copy (fast : Bool) (source : Tree) (d : CopyDecorator) (t : Tree) :
    Run (Outcome PathError × CopyDecorator) := do
  let (compiled, d) ← d.compiled
  match compiled with
  | .error e => return (.fail e t, d)
  | .ok paths =>
    let opened := paths.target.openContainer t
    match opened.error, paths.target.at? opened.tree with
    | none, some node =>
      let (records, d) ← d.records
      match records with
      | .error e => return (.fail e opened.tree, d)
      | .ok records =>
        let o ← Run.each (fun e => e.1.copy fast source e.2) records node
        return (o.within opened.tree paths.target.segments, d)
    | _, _ => return (opened, d)

/-- The spec with every selector beside what it belongs to, if its paths have been compiled. -/
def paired? (d : CopyDecorator) : Option CompiledCopySpec :=
  match d.memo with
  | some (.ok paths) => some (d.spec.pair paths)
  | _ => none

end CopyDecorator

/-! ### Copiers -/

namespace DecoratedCopier

/-- The copier of a list of specs, every one of which compiles; success is reported. -/
def ofSpecs (fast : Bool) (specs : List CopySpec) : Compilation DecoratedCopier := do
  let decorators ← CopyDecorator.verifyAll (specs.map fun s => { spec := s })
  Session.report (.copierReady decorators.length)
  return ⟨fast, decorators⟩

/-- The number of specs. -/
def size (c : DecoratedCopier) : Nat := c.specs.length

/-- The copier with its transforms as they are for the arguments of a run. -/
def reset (c : DecoratedCopier) (arguments : Arguments) : DecoratedCopier :=
  { c with specs := c.specs.map (CopyDecorator.reset arguments) }

/-- Runs every spec on a source and a destination, unreported. -/
def copyAll (c : DecoratedCopier) (source t : Tree) : Run (Outcome PathError × DecoratedCopier) := do
  let (o, specs) ← Run.updateEach (CopyDecorator.copy c.fast source) c.specs t
  return (o, { c with specs })

/-- Runs every spec on a source and a destination. -/
def copy (c : DecoratedCopier) (source t : Tree) : Run (Outcome PathError × DecoratedCopier) :=
  Run.asOperation .copier "copy" c.size (·.1.error) (c.copyAll source t)

/-- Resets the transforms and copies; the copier stays reset. -/
def copyWith (c : DecoratedCopier) (arguments : Arguments) (source t : Tree) :
    Run (Outcome PathError × DecoratedCopier) := (c.reset arguments).copy source t

/-- The copier that holds the specs with every selector beside what it belongs to. -/
def paired (c : DecoratedCopier) : Copier := ⟨c.fast, c.specs.filterMap CopyDecorator.paired?⟩

end DecoratedCopier

end DocumentPath
