import DocumentPath.Session
import DocumentPath.Spec.BuildSpec

/-!
# Compiling build specs

Every path of a build spec, of the target and of every entry, is compiled to a pointer.  The pointers are
kept in lists that run parallel to those of the spec (`BuildPaths`).  The target comes first, then the
literals, then the looked-up values; the first path that does not compile is reported under the name of its
spec.

A `CompiledBuildSpec` has every pointer beside the entry that it belongs to.  `BuildSpec.pair` brings the
parallel lists together so, and `Builder.ofSpecs` does it for a list of specs.
-/

namespace DocumentPath

/-- The compiled paths of a build spec, in lists parallel to those of the spec. -/
structure BuildPaths where
  target : Pointer
  literals : List Pointer
  puts : List Pointer
  deriving DecidableEq, Repr

/-- A literal value and the pointer it is placed at. -/
structure LiteralPlan where
  value : Scalar
  into : Pointer
  deriving DecidableEq, Repr

/-- A question to the lookup: a key, and the representation that its value will take. -/
structure Question where
  key : String
  representation : Representation
  deriving DecidableEq, Repr

/-- A value to look up, and how and where it is placed. -/
structure PutPlan where
  question : Question
  mode : PutMode
  into : Pointer
  deriving DecidableEq, Repr

/-- A build spec with its paths compiled. -/
structure CompiledBuildSpec where
  target : Pointer
  literals : List LiteralPlan
  puts : List PutPlan
  deriving DecidableEq, Repr

/-- Build specs ready to run. -/
structure Builder where
  specs : List CompiledBuildSpec
  deriving DecidableEq, Repr

namespace BuildSpec

/-- The compiled paths of the spec; an error names the spec. -/
def compilePaths (s : BuildSpec) : Except PathError BuildPaths :=
  Except.mapError (PathError.specValidation s.text) do
    let target ← Pointer.parse s.target
    let literals ← mapUntilFault (fun e => Pointer.parse e.into) s.literals
    let puts ← mapUntilFault (fun e => Pointer.parse e.into) s.puts
    return ⟨target, literals, puts⟩

/-- The spec with every pointer beside what it belongs to. -/
def pair (s : BuildSpec) (p : BuildPaths) : CompiledBuildSpec :=
  ⟨p.target, (s.literals.zip p.literals).map fun (e, into) => ⟨e.value, into⟩,
    (s.puts.zip p.puts).map fun (e, into) => ⟨⟨e.key, s.representationOf e⟩, e.mode, into⟩⟩

/-- The spec with its paths compiled. -/
def compile (s : BuildSpec) : Except PathError CompiledBuildSpec := s.compilePaths.map s.pair

end BuildSpec

namespace Builder

/-- The builder of a list of specs. -/
def ofSpecs (specs : List BuildSpec) : Except PathError Builder :=
  (mapUntilFault BuildSpec.compile specs).map Builder.mk

/-- The number of specs. -/
def size (b : Builder) : Nat := b.specs.length

end Builder

end DocumentPath
