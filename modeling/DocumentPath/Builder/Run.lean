import DocumentPath.Builder.Compile
import DocumentPath.Pointer.Write

/-!
# Running a builder

`Builder.build` places the literals of every spec in a destination, and then the values that a lookup
gives for the keys of every spec.  A spec first makes sure that its target is a container, unless it has
no literals to place.  The first error ends the run and leaves the destination as it is.

The lookup is asked once for each value to place, in order.  It is only ever asked by `Lookup.ask`, which
also takes the question down, so that `Built.asked` lists all questions.  A value that is absent or null is
left out.
-/

namespace DocumentPath

/-- Values by key, for the representation that they will take. -/
abbrev Lookup := Question → Option Scalar

/-- The outcome of placing looked-up values, and the questions asked on the way. -/
structure Built where
  outcome : Outcome PathError
  asked : List Question

namespace Built

/-- The outcome of a change that asks nothing. -/
def ofOutcome (o : Outcome PathError) : Built := ⟨o, []⟩

/-- Does something for each of a list of things until it fails, and puts the questions together. -/
def each {α : Type} (f : α → Tree → Run Built) : List α → Tree → Run Built
  | [], t => return .ofOutcome (.ok t)
  | a :: rest, t => do
    let b ← f a t
    match b.outcome.error with
    | some _ => return b
    | none =>
      let further ← each f rest b.outcome.tree
      return ⟨further.outcome, b.asked ++ further.asked⟩

end Built

/-- Asks a question and goes on with the answer.  The question comes before those that are asked then. -/
def Lookup.ask (lookup : Lookup) (q : Question) (go : Option Scalar → Run Built) : Run Built := do
  let b ← go (lookup q)
  return ⟨b.outcome, q :: b.asked⟩

namespace CompiledBuildSpec

/-- Runs a change of the container at the target, which is created if it is absent. -/
def atTarget (s : CompiledBuildSpec) (t : Tree) (f : Tree → Outcome PathError) : Outcome PathError :=
  let opened := s.target.openContainer t
  match opened.error, s.target.at? opened.tree with
  | none, some node => (f node).within opened.tree s.target.segments
  | _, _ => opened

/-- Places a literal. -/
def placeLiteral (e : LiteralPlan) (t : Tree) : Outcome PathError :=
  match e.value.coerce .native with
  | .ok v => e.into.set v t
  | .error err => .fail err t

/-- Places the literals; a spec without any changes nothing. -/
def placeLiterals (s : CompiledBuildSpec) (t : Tree) : Outcome PathError :=
  if s.literals.isEmpty then .ok t
  else s.atTarget t fun node => .sequence node (s.literals.map placeLiteral)

/-- Places the value that was found for an entry. -/
def placeValue (e : PutPlan) (value : Scalar) (t : Tree) : Outcome PathError :=
  match value.coerce e.question.representation with
  | .error err => .fail err t
  | .ok v =>
    match e.mode with
    | .put => e.into.set v t
    | .add => e.into.add v t

/-- Looks up the value of an entry and places it; that there is none is reported. -/
def placePut (lookup : Lookup) (e : PutPlan) (t : Tree) : Run Built :=
  lookup.ask e.question fun answer => do
    match answer.filter (· != .null) with
    | some value => return .ofOutcome (placeValue e value t)
    | none =>
      Session.report (.noValue e.question.key)
      return .ofOutcome (.ok t)

/-- Looks up and places the values of a list of entries until one fails. -/
def placePuts (lookup : Lookup) : List PutPlan → Tree → Run Built := Built.each (placePut lookup)

/-- Looks up and places the values of the spec. -/
def placeNodes (lookup : Lookup) (s : CompiledBuildSpec) (t : Tree) : Run Built := do
  let opened := s.target.openContainer t
  match opened.error, s.target.at? opened.tree with
  | none, some node =>
    let b ← placePuts lookup s.puts node
    return ⟨b.outcome.within opened.tree s.target.segments, b.asked⟩
  | _, _ => return .ofOutcome opened

end CompiledBuildSpec

namespace Builder

/-- Looks up and places the values of a list of specs until one fails. -/
def placeEach (lookup : Lookup) : List CompiledBuildSpec → Tree → Run Built :=
  Built.each (CompiledBuildSpec.placeNodes lookup)

/-- Places the literals of every spec. -/
def buildLiterals (b : Builder) (t : Tree) : Outcome PathError :=
  .sequence t (b.specs.map CompiledBuildSpec.placeLiterals)

/-- Looks up and places the values of every spec. -/
def buildNodes (b : Builder) (lookup : Lookup) (t : Tree) : Run Built := placeEach lookup b.specs t

/-- Places the literals and then the looked-up values of every spec, unreported. -/
def buildAll (b : Builder) (lookup : Lookup) (t : Tree) : Run Built :=
  let literals := b.buildLiterals t
  match literals.error with
  | some _ => return .ofOutcome literals
  | none => b.buildNodes lookup literals.tree

/-- Places the literals and then the looked-up values of every spec. -/
def build (b : Builder) (lookup : Lookup) (t : Tree) : Run Built :=
  Run.asOperation .builder "build" b.size (·.outcome.error) (b.buildAll lookup t)

end Builder

end DocumentPath
