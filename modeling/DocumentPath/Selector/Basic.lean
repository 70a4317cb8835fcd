import DocumentPath.Session

/-!
# Selectors

A `Selector` is a path that may match many locations: besides keys it may hold the segments `*`, for
every child, and `**`, for the node and every node below it.  It is compiled into a list of stages:
runs of keys become one literal stage each, and a terminal stage ends the list.
`Selector.compile` accepts exactly the paths whose segments are `*`, `**`, or free of asterisks and
properly escaped.

`Selector.all` lists the nodes that a selector matches in a tree.  A wildcard goes through the children
in order, and a descent through all nodes, each before the nodes below it.
-/

namespace DocumentPath

/-- One stage of a selector. -/
inductive Stage where
  /-- Fixed steps. -/
  | literal (p : Pointer)
  /-- Every child. -/
  | wildcard
  /-- The node and every node below it. -/
  | descent
  /-- The node is a match. -/
  | terminal
  deriving DecidableEq, Repr

/-- One segment of a selector's path. -/
inductive Step where
  | key (s : Segment)
  | wildcard
  | descent
  deriving DecidableEq, Repr

/-- A path that may match many locations. -/
structure Selector where
  path : String
  stages : List Stage
  deriving Repr

namespace Selector

/-- The step of an escaped segment. -/
def readStep (raw : List Char) : Except PathFault Step :=
  if raw = ['*'] then .ok .wildcard
  else if raw = ['*', '*'] then .ok .descent
  else if '*' ∈ raw then .error (.mixedWildcard (String.ofList raw))
  else (Segment.ofRaw raw).map .key

/-- The stages of a list of steps: neighbouring keys share one literal stage, and a terminal stage ends
the list. -/
def stagesOf : List Step → List Stage
  | [] => [.terminal]
  | .wildcard :: rest => .wildcard :: stagesOf rest
  | .descent :: rest => .descent :: stagesOf rest
  | .key s :: rest =>
    match stagesOf rest with
    | .literal p :: stages => .literal ⟨s :: p.segments⟩ :: stages
    | stages => .literal ⟨[s]⟩ :: stages

/-- The stages that a list of characters writes. -/
def stagesOfChars : List Char → Except PathFault (List Stage)
  | [] => .ok [.literal .root, .terminal]
  | cs =>
    match rawSegments cs with
    | .error fault => .error fault
    | .ok raws => (mapUntilFault readStep raws).map stagesOf

/-- The selector that a text writes. -/
def compile (path : String) : Except PathError Selector :=
  match stagesOfChars path.toList with
  | .ok stages => .ok ⟨path, stages⟩
  | .error fault => .error (.malformed path fault)

/-- The selector that a text writes; success is reported. -/
def compileReporting (path : String) : Compilation Selector :=
  match compile path with
  | .error e => throw e
  | .ok s => do
    Session.report (.compiledSelector path s.stages.length)
    return s

/-- Whether two selectors have the same stages. -/
def sameStages (s s' : Selector) : Bool := s.stages == s'.stages

/-- Whether no stage fans out. -/
def isAbsolute (s : Selector) : Bool :=
  s.stages.all fun stage => match stage with
    | .literal _ | .terminal => true
    | .wildcard | .descent => false

/-- The single pointer that a selector without wildcards comes to. -/
def asPointer? (s : Selector) : Option Pointer :=
  match s.stages with
  | [.literal p, .terminal] => some p
  | _ => none

end Selector

/-! ### Reading -/

/-- The nodes that a list of stages matches in a tree. -/
def Stage.matches : List Stage → Tree → List Tree
  | [], _ => []
  | .terminal :: _, t => [t]
  | .literal p :: rest, t => (p.at? t).elim [] (Stage.matches rest)
  | .wildcard :: rest, t => t.children.flatMap (Stage.matches rest)
  | .descent :: rest, t => t.nodes.flatMap (Stage.matches rest)

namespace Selector

/-- Every match in a tree. -/
def all (s : Selector) (t : Tree) : List Tree :=
  match s.asPointer? with
  | some p => (p.at? t).toList
  | none => Stage.matches s.stages t

/-- The first match in a tree. -/
def first? (s : Selector) (t : Tree) : Option Tree :=
  match s.asPointer? with
  | some p => p.at? t
  | none => (s.all t).head?

end Selector

end DocumentPath
