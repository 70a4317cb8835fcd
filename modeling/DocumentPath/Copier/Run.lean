import DocumentPath.Copier.Compile
import DocumentPath.Selector.Change
import DocumentPath.Selector.Remove

/-!
# Running a copier

`Copier.copy` runs every spec in order on a source and a destination.  A spec first makes sure that its
target is a container.  Then, for every match of every source record that the filter of the record
accepts, the includes are copied from the match to the target, the excludes are removed from the target,
and the transforms are applied there.  The first error ends the run and leaves the destination as it is.

Only resettable transforms change over the life of a copier: `Copier.reset` takes them anew from
arguments, and `Copier.copyWith` does so before it copies.
-/

namespace DocumentPath

namespace CompiledRecord

/-- The record with its transforms as they are for the arguments of a run. -/
def reset (arguments : Arguments) (r : CompiledRecord) : CompiledRecord :=
  { r with transforms := r.transforms.map fun (s, f) => (s, f.reset arguments) }

/-- Copies the includes of the record from one match. -/
def copyIncludes (r : CompiledRecord) (fast : Bool) (value : Tree) (t : Tree) : Outcome PathError :=
  .sequence t (r.includes.map fun (s, filter) => s.copy fast value filter)

/-- Removes the excludes of the record. -/
def removeExcluded : List Selector → Tree → Run Tree
  | [], t => return t
  | s :: rest, t => do
    let removal ← s.remove t
    removeExcluded rest removal.tree

/-- Applies the transforms of the record. -/
def transform (r : CompiledRecord) (t : Tree) : Outcome PathError :=
  .sequence t (r.transforms.map fun (s, f) => s.apply f.apply)

/-- Carries out the record for one match of its source. -/
def copyMatch (r : CompiledRecord) (fast : Bool) (value : Tree) (t : Tree) :
    Run (Outcome PathError) :=
  if r.filter.all (·.accepts value) then
    let o := r.copyIncludes fast value t
    match o.error with
    | some _ => return o
    | none => do
      let t ← removeExcluded r.excludes o.tree
      return r.transform t
  else return .ok t

/-- Carries out the record for every match of its source, whose number is reported. -/
def copy (fast : Bool) (source : Tree) (r : CompiledRecord) (t : Tree) : Run (Outcome PathError) := do
  let found := r.source.all source
  Session.report (.copySource r.path found.length)
  Run.each (r.copyMatch fast) found t

end CompiledRecord

namespace CompiledCopySpec

/-- The spec with its transforms as they are for the arguments of a run. -/
def reset (arguments : Arguments) (s : CompiledCopySpec) : CompiledCopySpec :=
  { s with records := s.records.map (CompiledRecord.reset arguments) }

/-- Runs the spec on a source and a destination. -/
def copy (fast : Bool) (source : Tree) (s : CompiledCopySpec) (t : Tree) :
    Run (Outcome PathError) :=
  let opened := s.target.openContainer t
  match opened.error, s.target.at? opened.tree with
  | none, some node => do
    let o ← Run.each (CompiledRecord.copy fast source) s.records node
    return o.within opened.tree s.target.segments
  | _, _ => return opened

end CompiledCopySpec

namespace Copier

/-- The copier with its transforms as they are for the arguments of a run. -/
def reset (c : Copier) (arguments : Arguments) : Copier :=
  { c with specs := c.specs.map (CompiledCopySpec.reset arguments) }

/-- Runs every spec on a source and a destination, unreported. -/
def copyAll (c : Copier) (source t : Tree) : Run (Outcome PathError) :=
  Run.each (CompiledCopySpec.copy c.fast source) c.specs t

/-- Runs every spec on a source and a destination. -/
def copy (c : Copier) (source t : Tree) : Run (Outcome PathError) :=
  Run.asOperation .copier "copy" c.size Outcome.error (c.copyAll source t)

/-- Resets the transforms and copies; the copier stays reset. -/
def copyWith (c : Copier) (arguments : Arguments) (source t : Tree) :
    Run (Outcome PathError × Copier) := do
  let c := c.reset arguments
  return (← c.copy source t, c)

end Copier

end DocumentPath
