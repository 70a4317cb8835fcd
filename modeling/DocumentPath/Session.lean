import DocumentPath.Cache
import DocumentPath.Event
import DocumentPath.Tree.Outcome

/-!
# Sessions

What compiled paths share while they are used: the pointer cache and the log of events.  Operations
that consult either run in the state monad `Run`, and operations that may also fail without a result in
`Compilation`.  `Run.each` runs changes of one tree in turn, `Run.updateEach` does so for things that may
change by it, and `Run.asOperation` reports the start and the end of a whole operation.
-/

namespace DocumentPath

/-- A pointer cache and a log of events, oldest first. -/
structure Session where
  cache : Cache
  events : List Event

/-- Computations that may consult the cache and report events. -/
abbrev Run := StateM Session

/-- Computations that may also fail; what they reported before stays. -/
abbrev Compilation := ExceptT PathError Run

namespace Session

/-- A session with nothing logged and an empty cache of the given capacity. -/
def ofCapacity (n : Nat) : Session := ⟨.ofCapacity n, []⟩

/-- Reports an event. -/
def report (e : Event) : Run Unit := fun s => ((), { s with events := s.events ++ [e] })

/-- The pointer of a single segment, from the cache; each segment dropped from the cache is
reported. -/
def pointer (segment : Segment) : Run Pointer := fun s =>
  let answer := s.cache.get segment
  (answer.pointer, ⟨answer.cache, s.events ++ answer.dropped.map .evicted⟩)

end Session

namespace Run

/-- Runs a change for each of a list of things until one fails. -/
def each {α ε : Type} (f : α → Tree → Run (Outcome ε)) : List α → Tree → Run (Outcome ε)
  | [], t => return .ok t
  | a :: rest, t => do
    let o ← f a t
    match o.error with
    | some _ => return o
    | none => each f rest o.tree

/-- Runs a change for each of a list of things, which may change as well, until one fails. -/
def updateEach {α ε : Type} (f : α → Tree → Run (Outcome ε × α)) :
    List α → Tree → Run (Outcome ε × List α)
  | [], t => return (.ok t, [])
  | a :: rest, t => do
    let (o, a) ← f a t
    match o.error with
    | some _ => return (o, a :: rest)
    | none =>
      let (o, rest) ← updateEach f rest o.tree
      return (o, a :: rest)

/-- Runs an operation of a component over a number of specs and reports its start, and its end or the
error that its result holds. -/
def asOperation {α : Type} (component : Component) (operation : String) (specs : Nat)
    (error? : α → Option PathError) (body : Run α) : Run α := do
  Session.report (.started component operation specs)
  let result ← body
  match error? result with
  | some e => Session.report (.failed component operation e)
  | none => Session.report (.ended component operation)
  return result

end Run

end DocumentPath
