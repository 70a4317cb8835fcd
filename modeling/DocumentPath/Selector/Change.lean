import DocumentPath.PathTree
import DocumentPath.Pointer.Copy
import DocumentPath.Selector.Basic

/-!
# Copying and transforming through a selector

`Selector.copy` copies every match of a source to the same location of a destination.  `Stage.copy` walks
through the source and keeps the segments walked so far; at the end of the stages it copies the location
that they lead to, under one placement for the whole run.  A descent first takes down the locations below
the node, and then goes to them one after another, the node itself last.  When a descent ends the path and
nothing is filtered, copying the node itself is enough; `direct` says whether that shortcut is taken.

`Selector.apply` replaces every match in a tree by its image under a transform, and stops at the first
image that fails.  A descent transforms the nodes below a node before the node itself, so an image is
never searched for matches.
-/

namespace DocumentPath

/-! ### Copying -/

/-- Copies for each of a list of things in order, under one placement, until a copy fails. -/
def Placement.each {α : Type} (f : α → Placement → Tree → Outcome PathError × Placement) :
    List α → Placement → Tree → Outcome PathError × Placement
  | [], pl, t => (.ok t, pl)
  | a :: rest, pl, t =>
    let (o, pl) := f a pl t
    match o.error with
    | some _ => (o, pl)
    | none => each f rest pl o.tree

/-- Copies what a list of stages matches below the node `u`, to which the segments `walked` lead in the
source. -/
def Stage.copy (direct : Bool) (source : Tree) (filter : Option Filter) :
    List Stage → List Segment → Tree → Placement → Tree → Outcome PathError × Placement
  | [], _, _, pl, t => (.ok t, pl)
  | .terminal :: _, walked, _, pl, t => Pointer.copyPlaced ⟨walked⟩ source filter pl t
  | .literal p :: rest, walked, u, pl, t =>
    match p.at? u with
    | some c => Stage.copy direct source filter rest (walked ++ p.segments) c pl t
    | none => (.ok t, pl)
  | .wildcard :: rest, walked, u, pl, t =>
    Placement.each (fun (s, c) => Stage.copy direct source filter rest (walked ++ [s]) c) u.members pl t
  | .descent :: rest, walked, u, pl, t =>
    if direct && rest = [.terminal] then Stage.copy direct source filter rest walked u pl t
    else
      Placement.each (fun path pl t =>
        match u.at? path with
        | some c => Stage.copy direct source filter rest (walked ++ path) c pl t
        | none => (.ok t, pl)) (PathTree.ofTree u).paths pl t

namespace Selector

/-- Copies every match that a filter accepts from a source to a destination; `fast` allows the
shortcut of a descent that ends the path. -/
def copy (s : Selector) (fast : Bool) (source : Tree) (filter : Option Filter) (t : Tree) :
    Outcome PathError :=
  match s.asPointer? with
  | some p => p.copy source filter t
  | none => (Stage.copy (fast && filter.isNone) source filter s.stages [] source .empty t).1

end Selector

/-! ### Transforming -/

/-- Transforms what a list of stages matches in a tree. -/
def Stage.apply (f : Tree → Except PathError Tree) : List Stage → Tree → Outcome PathError
  | [], t => .ok t
  | .terminal :: _, t => .ofExcept t (f t)
  | .literal p :: rest, t =>
    match p.at? t with
    | some c => (Stage.apply f rest c).within t p.segments
    | none => .ok t
  | .wildcard :: rest, t => t.changeChildren (Stage.apply f rest)
  | .descent :: rest, t => t.changeUp (Stage.apply f rest)

/-- Transforms every match in a tree. -/
def Selector.apply (s : Selector) (f : Tree → Except PathError Tree) (t : Tree) :
    Outcome PathError :=
  match s.asPointer? with
  | some p => p.apply f t
  | none => Stage.apply f s.stages t

end DocumentPath
