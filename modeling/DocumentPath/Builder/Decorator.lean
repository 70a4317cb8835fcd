import DocumentPath.Builder.Run

/-!
# Builders of decorated specs

A `BuildDecorator` owns a build spec and compiles its paths when they are first asked for; what comes of
that, success or failure, is kept for good.  The pointers stay in lists apart from the entries, and every
run zips the two anew.

`DecoratedBuilder.ofSpecs` has every spec compiled, so that the first path that does not compile is found
before anything is built.  `DecoratedBuilder.paired` is the builder that holds the lists brought together.
-/

namespace DocumentPath

/-- A build spec, and what its paths have been compiled to if that has been asked for. -/
structure BuildDecorator where
  spec : BuildSpec
  memo : Option (Except PathError BuildPaths) := none

/-- Decorated build specs. -/
structure DecoratedBuilder where
  specs : List BuildDecorator

/-- Does something for each of a list of things, which may change by it, until it fails, and puts the
questions together. -/
def Built.updateEach {α : Type} (f : α → Tree → Run (Built × α)) :
    List α → Tree → Run (Built × List α)
  | [], t => return (.ofOutcome (.ok t), [])
  | a :: rest, t => do
    let (b, a) ← f a t
    match b.outcome.error with
    | some _ => return (b, a :: rest)
    | none =>
      let (further, rest) ← updateEach f rest b.outcome.tree
      return (⟨further.outcome, b.asked ++ further.asked⟩, a :: rest)

/-! ### Entries -/

namespace BuildSpec

/-- Places a literal at its pointer. -/
def placeLiteral (e : LiteralEntry) (into : Pointer) (t : Tree) : Outcome PathError :=
  match e.value.coerce .native with
  | .ok v => into.set v t
  | .error err => .fail err t

/-- Places a value of an entry at its pointer. -/
def placeValue (s : BuildSpec) (e : PutEntry) (into : Pointer) (value : Scalar) (t : Tree) :
    Outcome PathError :=
  match value.coerce (s.representationOf e) with
  | .error err => .fail err t
  | .ok v =>
    match e.mode with
    | .put => into.set v t
    | .add => into.add v t

/-- Looks up the value of an entry and places it at its pointer; that there is none is reported. -/
def placePut (s : BuildSpec) (lookup : Lookup) (e : PutEntry) (into : Pointer) (t : Tree) :
    Run Built :=
  lookup.ask ⟨e.key, s.representationOf e⟩ fun answer => do
    match answer.filter (· != .null) with
    | some value => return .ofOutcome (s.placeValue e into value t)
    | none =>
      Session.report (.noValue e.key)
      return .ofOutcome (.ok t)

end BuildSpec

/-! ### Specs -/

namespace BuildDecorator

/-- The compiled paths: those kept, or those that the paths of the spec are compiled to now, which are then
kept. -/
def compiled (d : BuildDecorator) : Except PathError BuildPaths × BuildDecorator :=
  match d.memo with
  | some result => (result, d)
  | none => (d.spec.compilePaths, { d with memo := some d.spec.compilePaths })

/-- Every literal beside its pointer. -/
def literals (d : BuildDecorator) :
    Except PathError (List (LiteralEntry × Pointer)) × BuildDecorator :=
  let (compiled, d) := d.compiled
  (compiled.map fun paths => d.spec.literals.zip paths.literals, d)

/-- Every entry of a looked-up value beside its pointer. -/
def puts (d : BuildDecorator) : Except PathError (List (PutEntry × Pointer)) × BuildDecorator :=
  let (compiled, d) := d.compiled
  (compiled.map fun paths => d.spec.puts.zip paths.puts, d)

/-- Has the paths compiled. -/
def verify (d : BuildDecorator) : Except PathError BuildDecorator :=
  let (compiled, d) := d.compiled
  compiled.map fun _ => d

/-- Places the literals; a spec without any changes nothing. -/
def placeLiterals (d : BuildDecorator) (t : Tree) : Run (Outcome PathError × BuildDecorator) :=
  if d.spec.literals.isEmpty then return (.ok t, d)
  else
    let (compiled, d) := d.compiled
    match compiled with
    | .error e => return (.fail e t, d)
    | .ok paths =>
      let opened := paths.target.openContainer t
      match opened.error, paths.target.at? opened.tree with
      | none, some node =>
        let (literals, d) := d.literals
        match literals with
        | .error e => return (.fail e opened.tree, d)
        | .ok literals =>
          let o := Outcome.sequence node (literals.map fun (e, into) => BuildSpec.placeLiteral e into)
          return (o.within opened.tree paths.target.segments, d)
      | _, _ => return (opened, d)

/-- Looks up and places the values of the spec. -/
def placeNodes (lookup : Lookup) (d : BuildDecorator) (t : Tree) : Run (Built × BuildDecorator) :=
  let (compiled, d) := d.compiled
  match compiled with
  | .error e => return (.ofOutcome (.fail e t), d)
  | .ok paths =>
    let opened := paths.target.openContainer t
    match opened.error, paths.target.at? opened.tree with
    | none, some node =>
      let (puts, d) := d.puts
      match puts with
      | .error e => return (.ofOutcome (.fail e opened.tree), d)
      | .ok puts => do
        let b ← Built.each (fun e => d.spec.placePut lookup e.1 e.2) puts node
        return (⟨b.outcome.within opened.tree paths.target.segments, b.asked⟩, d)
    | _, _ => return (.ofOutcome opened, d)

/-- The spec with every pointer beside what it belongs to, if its paths have been compiled. -/
def paired? (d : BuildDecorator) : Option CompiledBuildSpec :=
  match d.memo with
  | some (.ok paths) => some (d.spec.pair paths)
  | _ => none

end BuildDecorator

/-! ### Builders -/

namespace DecoratedBuilder

/-- The builder of a list of specs, every one of which compiles. -/
def ofSpecs (specs : List BuildSpec) : Except PathError DecoratedBuilder :=
  (mapUntilFault BuildDecorator.verify (specs.map fun s => { spec := s })).map DecoratedBuilder.mk

/-- The number of specs. -/
def size (b : DecoratedBuilder) : Nat := b.specs.length

/-- Places the literals of every spec. -/
def buildLiterals (b : DecoratedBuilder) (t : Tree) : Run (Outcome PathError × DecoratedBuilder) := do
  let (o, specs) ← Run.updateEach BuildDecorator.placeLiterals b.specs t
  return (o, ⟨specs⟩)

/-- Looks up and places the values of every spec. -/
def buildNodes (b : DecoratedBuilder) (lookup : Lookup) (t : Tree) :
    Run (Built × DecoratedBuilder) := do
  let (built, specs) ← Built.updateEach (BuildDecorator.placeNodes lookup) b.specs t
  return (built, ⟨specs⟩)

/-- Places the literals and then the looked-up values of every spec, unreported. -/
def buildAll (b : DecoratedBuilder) (lookup : Lookup) (t : Tree) : Run (Built × DecoratedBuilder) := do
  let (literals, b) ← b.buildLiterals t
  match literals.error with
  | some _ => return (.ofOutcome literals, b)
  | none => b.buildNodes lookup literals.tree

/-- Places the literals and then the looked-up values of every spec. -/
def build (b : DecoratedBuilder) (lookup : Lookup) (t : Tree) : Run (Built × DecoratedBuilder) :=
  Run.asOperation .builder "build" b.size (·.1.outcome.error) (b.buildAll lookup t)

/-- The builder that holds the specs with every pointer beside what it belongs to. -/
def paired (b : DecoratedBuilder) : Builder := ⟨b.specs.filterMap BuildDecorator.paired?⟩

end DecoratedBuilder

end DocumentPath
