import DocumentPath.Filter
import DocumentPath.Pointer.Write

/-!
# Copying a location

`Pointer.copy` copies the node at a location of a source to the same location of a destination.  Map
steps keep their keys.  Array steps do not keep their positions: an element of the destination is
reused when its index is in use, and otherwise a new one is appended, so that copies of some elements
of an array close up.

A `Placement` remembers, over a run of copies, where each source element went, so that everything
copied from one source element lands in one destination element.
-/

namespace DocumentPath

/-- The destination index of every source element that has been copied into, by the source path. -/
structure Placement where
  slots : Entries (List Segment) Nat

namespace Placement

/-- No element has been placed. -/
def empty : Placement := ⟨[]⟩

/-- The destination index of a source element. -/
def get? (pl : Placement) (source : List Segment) : Option Nat := Entries.get? pl.slots source

/-- Records the destination index of a source element; the first record stands. -/
def record (pl : Placement) (source : List Segment) (i : Nat) : Placement :=
  match pl.get? source with
  | some _ => pl
  | none => ⟨Entries.insert pl.slots source i⟩

end Placement

namespace Tree

/-- The index in an array at which a source element lands, among the indexes that `usable` allows:
where it has been placed before, or else at its own index; absent if a new element is needed. -/
def slot? (pl : Placement) (source : List Segment) (s : Segment) (usable : Nat → Bool) : Option Nat :=
  ((pl.get? source).or s.index?).filter usable

/-- Copies `v` into a destination along the segments that remain of its path, those before them having
been `walked`. -/
def copyInto (v : Tree) :
    List Segment → List Segment → Placement → Tree → Outcome Obstacle × Placement
  | _, [], pl, t => (.ok t, pl)
  | walked, [s], pl, t =>
    let source := walked ++ [s]
    match t with
    | .map _ => (.ok (t.insertField s.key v), pl)
    | .array items =>
      match slot? pl source s (· < items.length) with
      | some i => (.ok (.array (items.set i v)), pl.record source i)
      | none => (.ok (t.pushElement v), pl.record source items.length)
    | _ => (.fail .destinationIsValue t, pl)
  | walked, s :: next :: rest, pl, t =>
    let source := walked ++ [s]
    match t with
    | .map _ =>
      let t := if (t.field? s.key).isSome then t else t.insertField s.key (freshFor next)
      match t.field? s.key with
      | none => (.fail (.notContainer s) t, pl)
      | some c =>
        if c.isContainer then
          let (o, pl) := copyInto v source (next :: rest) pl c
          (o.within t [s], pl)
        else (.fail (.notContainer s) t, pl)
    | .array items =>
      let usable (i : Nat) : Bool := (items[i]?.map isContainer).getD false
      match slot? pl source s usable with
      | some i =>
        let (o, pl) := copyInto v source (next :: rest) (pl.record source i) (items[i]?.getD .null)
        (⟨.array (items.set i o.tree), o.error⟩, pl)
      | none =>
        let (o, pl) :=
          copyInto v source (next :: rest) (pl.record source items.length) (freshFor next)
        (⟨.array (items ++ [o.tree]), o.error⟩, pl)
    | _ => (.fail (.descendIntoValue s) t, pl)

/-- Merges the children of a root into another root of the same kind. -/
def mergeRoot (v t : Tree) : Outcome Obstacle :=
  match v, t with
  | .map fields, .map _ => .ok (fields.foldl (fun t (k, c) => t.insertField k c) t)
  | .array items, .array items' => .ok (.array (items' ++ items))
  | v, t => .fail (.cannotMerge v.kind t.kind) t

end Tree

namespace Pointer

/-- Copies the location from a source to a destination, reusing and extending a placement.  A location
that is absent from the source, or rejected by the filter, is left alone; copying the root merges its
children into the destination. -/
def copyPlaced (p : Pointer) (source : Tree) (filter : Option Filter) (pl : Placement) (t : Tree) :
    Outcome PathError × Placement :=
  match p.at? source with
  | none => (.ok t, pl)
  | some v =>
    if filter.all (·.accepts v) then
      if p.isRoot then ((v.mergeRoot t).mapError (·.at p), pl)
      else
        let (o, pl) := Tree.copyInto v [] p.segments pl t
        (o.mapError (·.at p), pl)
    else (.ok t, pl)

/-- Copies the location from a source to a destination. -/
def copy (p : Pointer) (source : Tree) (filter : Option Filter) (t : Tree) : Outcome PathError :=
  (p.copyPlaced source filter .empty t).1

/-- Copies several locations one after another under one placement, until a copy fails. -/
def copyEach (source : Tree) (filter : Option Filter) :
    List Pointer → Placement → Tree → Outcome PathError × Placement
  | [], pl, t => (.ok t, pl)
  | p :: rest, pl, t =>
    let (o, pl) := p.copyPlaced source filter pl t
    match o.error with
    | some _ => (o, pl)
    | none => copyEach source filter rest pl o.tree

end Pointer

end DocumentPath
