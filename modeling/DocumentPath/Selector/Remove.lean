import DocumentPath.Pointer.Write
import DocumentPath.Selector.Basic

/-!
# Removing through a selector

`Selector.remove` detaches every match from a tree.  A stage right before the terminal detaches from
the node it visits, for that node is the parent of the match.  A descent visits a node before its
children, so a match inside a detached match is not met again.
-/

namespace DocumentPath

/-- The nodes detached from a tree, in the order in which they were met, and what remains of it. -/
structure Removal where
  removed : List Tree
  tree : Tree

namespace Removal

/-- Nothing detached. -/
def none (t : Tree) : Removal := ⟨[], t⟩

/-- The removal of one node through a pointer. -/
def ofPointer (p : Pointer) (t : Tree) : Removal :=
  let (v, t) := p.remove t
  ⟨v.toList, t⟩

/-- Removes from each of a list of trees in order. -/
def fromItems (f : Tree → Run Removal) : List Tree → Run (List Tree × List Tree)
  | [] => return ([], [])
  | t :: rest => do
    let r ← f t
    let (removed, rest) ← fromItems f rest
    return (r.removed ++ removed, r.tree :: rest)

/-- Removes from each of a list of fields in order. -/
def fromFields (f : Tree → Run Removal) :
    List (String × Tree) → Run (List Tree × List (String × Tree))
  | [] => return ([], [])
  | (k, t) :: rest => do
    let r ← f t
    let (removed, rest) ← fromFields f rest
    return (r.removed ++ removed, (k, r.tree) :: rest)

/-- Removes from each child in order. -/
def fromChildren (f : Tree → Run Removal) : Tree → Run Removal
  | .array items => do
    let (removed, items) ← fromItems f items
    return ⟨removed, .array items⟩
  | .map fields => do
    let (removed, fields) ← fromFields f fields
    return ⟨removed, .map fields⟩
  | t => return none t

/-- Removes from a node, then in the same way from what remains of its children, down to the given
depth. -/
def downwards (f : Tree → Run Removal) : Nat → Tree → Run Removal
  | 0, t => f t
  | depth + 1, t => do
    let here ← f t
    let below ← fromChildren (downwards f depth) here.tree
    return ⟨here.removed ++ below.removed, below.tree⟩

/-- Detaches the children that a list of segments names, one after another. -/
def ofSegments : List Segment → Tree → Run Removal
  | [], t => return none t
  | s :: rest, t => do
    let p ← Session.pointer s
    let here := ofPointer p t
    let further ← ofSegments rest here.tree
    return ⟨here.removed ++ further.removed, further.tree⟩

/-- Detaches all children of a node.  Elements of an array go highest index first, so that the indexes
of the others stand, and are put back in order. -/
def ofChildren (t : Tree) : Run Removal := do
  let segments := t.members.map Prod.fst
  match t.kind with
  | .array =>
    let r ← ofSegments segments.reverse t
    return ⟨r.removed.reverse, r.tree⟩
  | _ => ofSegments segments t

/-- Removes what a list of stages matches in a tree.  What remains of a node is never deeper than the
node was, so a descent to the height of the node reaches everything. -/
def ofStages : List Stage → Tree → Run Removal
  | [], t => return none t
  | .terminal :: _, t => return none t
  | [.literal p, .terminal], t => return ofPointer p t
  | .literal p :: rest, t =>
    match p.at? t with
    | some c => do
      let r ← ofStages rest c
      return ⟨r.removed, t.putAt p.segments r.tree⟩
    | Option.none => return none t
  | [.wildcard, .terminal], t => ofChildren t
  | [.descent, .terminal], t => ofChildren t
  | .wildcard :: rest, t => fromChildren (ofStages rest) t
  | .descent :: rest, t => downwards (ofStages rest) t.height t

end Removal

/-- Detaches every match from a tree. -/
def Selector.remove (s : Selector) (t : Tree) : Run Removal :=
  match s.asPointer? with
  | some p => return .ofPointer p t
  | none => Removal.ofStages s.stages t

end DocumentPath
