import DocumentPath.Pointer.Basic
import DocumentPath.Tree.Outcome

/-!
# Writing at a pointer

The operations that change one location.  `Pointer.set`, `Pointer.add` and `Pointer.openContainer`
create what is missing on the way: a missing container is an array when the next segment is an index
and a map otherwise, and an array is padded with nulls up to the index written.  `Pointer.apply`
transforms what is there and creates nothing, and `Pointer.remove` detaches it.

`Tree.atParent` is the walk that the first three share: it makes sure that every container on the way
exists and runs a change on the last one.
-/

namespace DocumentPath

namespace Tree

/-- The empty container that the segment after it calls for. -/
def freshFor (next : Segment) : Tree := if next.isIndex then .array [] else .map []

/-- The items of an array with `v` at index `i`: in the place of an item, or after as many nulls as
are missing. -/
def placeItem (items : List Tree) (i : Nat) (v : Tree) : List Tree :=
  if i < items.length then items.set i v
  else items ++ List.replicate (i - items.length) .null ++ [v]

/-- A container with `v` as the child that a segment names. -/
def place (t : Tree) (s : Segment) (v : Tree) : Except Obstacle Tree :=
  match t with
  | .map _ => .ok (t.insertField s.key v)
  | .array items =>
    match s.index? with
    | some i => .ok (.array (placeItem items i v))
    | none => .error (.notIndex s)
  | _ => .error (.writeIntoValue s)

/-- A container with `v` as the child that a segment names, unless it has that child already. -/
def ensureChild (t : Tree) (s : Segment) (v : Tree) : Except Obstacle Tree :=
  if (t.child? s).isSome then .ok t else t.place s v

/-- Walks to the container of the location that a list of segments names, creating the containers
that are missing, and runs a change on it with the last segment. -/
def atParent (change : Segment → Tree → Outcome Obstacle) :
    List Segment → Tree → Outcome Obstacle
  | [], t => .ok t
  | [s], t => change s t
  | s :: next :: rest, t =>
    match t.ensureChild s (freshFor next) with
    | .error o => .fail o t
    | .ok t' =>
      match t'.child? s with
      | none => .fail .ancestorNotCreated t'
      | some c =>
        if c.isContainer then (atParent change (next :: rest) c).within t' [s]
        else .fail (.notContainer s) t'

/-- The child that a segment names becomes `v`. -/
def setChild (v : Tree) (s : Segment) (t : Tree) : Outcome Obstacle := .ofExcept t (t.place s v)

/-- The child that a segment names becomes a container, if it is absent. -/
def openChild (s : Segment) (t : Tree) : Outcome Obstacle :=
  match t.ensureChild s (.map []) with
  | .error o => .fail o t
  | .ok t' =>
    match t'.child? s with
    | none => .fail .containerNotCreated t'
    | some c => if c.isContainer then .ok t' else .fail .locationHoldsValue t'

/-- The node that opening a location gives: the child that the last segment names, in the container that
the walk of `atParent` goes to. -/
def openedAt : List Segment → Tree → Except Obstacle Tree
  | [], t => .ok t
  | [s], t =>
    match t.ensureChild s (.map []) with
    | .error o => .error o
    | .ok t' =>
      match t'.child? s with
      | none => .error .containerNotCreated
      | some c => if c.isContainer then .ok c else .error .locationHoldsValue
  | s :: next :: rest, t =>
    match t.ensureChild s (freshFor next) with
    | .error o => .error o
    | .ok t' =>
      match t'.child? s with
      | none => .error .ancestorNotCreated
      | some c => if c.isContainer then openedAt (next :: rest) c else .error (.notContainer s)

/-- The child that a segment names, an array, gets one more element; it is created if absent. -/
def addToChild (v : Tree) (s : Segment) (t : Tree) : Outcome Obstacle :=
  match t.ensureChild s (.array []) with
  | .error o => .fail o t
  | .ok t' =>
    match t'.child? s with
    | none => .fail .arrayNotCreated t'
    | some c =>
      match c.kind with
      | .array => .ok (t'.putChild s (c.pushElement v))
      | k => .fail (.cannotAddTo k) t'

end Tree

namespace Pointer

/-! ### Creating operations -/

/-- Writes `v` at the location. -/
def set (p : Pointer) (v t : Tree) : Outcome PathError :=
  if p.isRoot then .ok v
  else (Tree.atParent (Tree.setChild v) p.segments t).mapError (·.at p)

/-- Appends `v` to the array at the location, which is created if absent. -/
def add (p : Pointer) (v t : Tree) : Outcome PathError :=
  if p.isRoot then
    match t.kind with
    | .array => .ok (t.pushElement v)
    | _ => .fail (Obstacle.at .rootNotArray p) t
  else (Tree.atParent (Tree.addToChild v) p.segments t).mapError (·.at p)

/-- Makes sure that there is a container at the location; a map is created if it is absent. -/
def openContainer (p : Pointer) (t : Tree) : Outcome PathError :=
  if p.isRoot then
    if t.isContainer then .ok t else .fail (Obstacle.at .rootNotContainer p) t
  else (Tree.atParent Tree.openChild p.segments t).mapError (·.at p)

/-- The container at the location, as `openContainer` leaves it. -/
def opened (p : Pointer) (t : Tree) : Except PathError Tree :=
  if p.isRoot then
    if t.isContainer then .ok t else .error (Obstacle.at .rootNotContainer p)
  else (Tree.openedAt p.segments t).mapError (·.at p)

/-- Writes the image of `v` under a transform. -/
def setWith (p : Pointer) (f : Tree → Except PathError Tree) (v t : Tree) : Outcome PathError :=
  match f v with
  | .ok v => p.set v t
  | .error e => .fail e t

/-- Appends the image of `v` under a transform. -/
def addWith (p : Pointer) (f : Tree → Except PathError Tree) (v t : Tree) : Outcome PathError :=
  match f v with
  | .ok v => p.add v t
  | .error e => .fail e t

/-! ### Operations on what is there -/

/-- Detaches the node at the location, if there is one; the root cannot be detached. -/
def remove (p : Pointer) (t : Tree) : Option Tree × Tree :=
  let detached := do
    let s ← p.tail?
    let parent ← p.head.at? t
    let (v, parent) ← parent.takeChild? s
    return (some v, t.putAt p.head.segments parent)
  detached.getD (none, t)

/-- Replaces the node at the location by its image under a transform.  The container of the location
must exist; a location absent from it is left alone. -/
def apply (p : Pointer) (f : Tree → Except PathError Tree) (t : Tree) : Outcome PathError :=
  match p.tail? with
  | none => .ofExcept t (f t)
  | some s =>
    match p.head.at? t with
    | none => .fail (.missingParent p.text) t
    | some parent =>
      if parent.isContainer then
        match parent.child? s with
        | none => .ok t
        | some v => (Outcome.ofExcept v (f v)).within t p.segments
      else .fail (Obstacle.at .parentIsValue p) t

end Pointer

end DocumentPath
