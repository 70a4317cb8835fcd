import DocumentPath.Entries
import DocumentPath.Segment

/-!
# Document trees

A tree is null, a boolean, a number, a text, an array of trees, or a map from keys to trees in
insertion order.  Nodes are of three kinds: arrays, maps, and everything else, the values.

`Tree.child?` is the child that a segment names and `Tree.members` lists all children under their
segments; `Tree.at?` follows a list of segments and `Tree.putAt` replaces the node it leads to.  The
remaining operations are the primitive changes of one container; on a node of the wrong kind they
change nothing.  `Tree.Distinct` says that no map of a tree has a key twice.
-/

namespace DocumentPath

/-- A number of a document: an integer or a finite double. -/
inductive Number where
  | int (n : Int)
  | float (x : Binary64.Finite)
  deriving DecidableEq, Repr

/-- A document, or any node of one. -/
inductive Tree where
  | null
  | bool (b : Bool)
  | number (n : Number)
  | text (s : String)
  | array (items : List Tree)
  | map (fields : List (String × Tree))
  deriving Repr, Inhabited

/-- The three kinds of nodes. -/
inductive Kind where
  | array
  | map
  | value
  deriving DecidableEq, Repr

namespace Kind

/-- The name of a kind. -/
def name : Kind → String
  | .array => "array"
  | .map => "map"
  | .value => "value"

/-- The kind of a name. -/
def ofName? (s : String) : Option Kind := [array, map, value].find? (·.name == s)

/-- Arrays and maps are containers. -/
def isContainer (k : Kind) : Bool := k != .value

end Kind

namespace Tree

/-! ### Equality -/

mutual

/-- Decides whether two trees are equal. -/
def decEq : (t u : Tree) → Decidable (t = u)
  | .null, u => match u with
    | .null => isTrue rfl
    | .bool _ | .number _ | .text _ | .array _ | .map _ => isFalse nofun
  | .bool a, u => match u with
    | .bool b => if h : a = b then isTrue (h ▸ rfl) else isFalse fun e => h (Tree.bool.inj e)
    | .null | .number _ | .text _ | .array _ | .map _ => isFalse nofun
  | .number a, u => match u with
    | .number b => if h : a = b then isTrue (h ▸ rfl) else isFalse fun e => h (Tree.number.inj e)
    | .null | .bool _ | .text _ | .array _ | .map _ => isFalse nofun
  | .text a, u => match u with
    | .text b => if h : a = b then isTrue (h ▸ rfl) else isFalse fun e => h (Tree.text.inj e)
    | .null | .bool _ | .number _ | .array _ | .map _ => isFalse nofun
  | .array a, u => match u with
    | .array b => match decEqItems a b with
      | isTrue h => isTrue (h ▸ rfl)
      | isFalse h => isFalse fun e => h (Tree.array.inj e)
    | .null | .bool _ | .number _ | .text _ | .map _ => isFalse nofun
  | .map a, u => match u with
    | .map b => match decEqFields a b with
      | isTrue h => isTrue (h ▸ rfl)
      | isFalse h => isFalse fun e => h (Tree.map.inj e)
    | .null | .bool _ | .number _ | .text _ | .array _ => isFalse nofun

/-- Decides whether two lists of trees are equal. -/
def decEqItems : (l m : List Tree) → Decidable (l = m)
  | [], m => match m with
    | [] => isTrue rfl
    | _ :: _ => isFalse nofun
  | t :: l, m => match m with
    | [] => isFalse nofun
    | u :: m => match decEq t u, decEqItems l m with
      | isTrue h, isTrue h' => isTrue (h ▸ h' ▸ rfl)
      | isFalse h, _ => isFalse fun e => h (List.cons.inj e).1
      | _, isFalse h => isFalse fun e => h (List.cons.inj e).2

/-- Decides whether two lists of fields are equal. -/
def decEqFields : (l m : List (String × Tree)) → Decidable (l = m)
  | [], m => match m with
    | [] => isTrue rfl
    | _ :: _ => isFalse nofun
  | (k, t) :: l, m => match m with
    | [] => isFalse nofun
    | (k', u) :: m =>
      if hk : k = k' then
        match decEq t u, decEqFields l m with
        | isTrue h, isTrue h' => isTrue (hk ▸ h ▸ h' ▸ rfl)
        | isFalse h, _ => isFalse fun e => h (Prod.mk.inj (List.cons.inj e).1).2
        | _, isFalse h => isFalse fun e => h (List.cons.inj e).2
      else isFalse fun e => hk (Prod.mk.inj (List.cons.inj e).1).1

end

instance : DecidableEq Tree := decEq

/-! ### Inspection -/

/-- The kind of a node. -/
def kind : Tree → Kind
  | .array _ => .array
  | .map _ => .map
  | _ => .value

/-- Whether a node is an array or a map. -/
def isContainer (t : Tree) : Bool := t.kind.isContainer

/-- The children of a node: elements by index, or field values in insertion order. -/
def children : Tree → List Tree
  | .array items => items
  | .map fields => fields.map Prod.snd
  | _ => []

/-- The fields of a map. -/
def entries : Tree → List (String × Tree)
  | .map fields => fields
  | _ => []

/-- The children of a node, each under the segment that names it. -/
def members : Tree → List (Segment × Tree)
  | .array items => items.zipIdx.map fun (t, i) => (.ofIndex i, t)
  | .map fields => fields.map fun (k, t) => (⟨k⟩, t)
  | _ => []

/-- The field of a map with the given key. -/
def field? : Tree → String → Option Tree
  | .map fields, k => Entries.get? fields k
  | _, _ => none

/-- The element of an array at the given index. -/
def element? : Tree → Nat → Option Tree
  | .array items, i => items[i]?
  | _, _ => none

/-- The child that a segment names: a field of a map, or an element of an array. -/
def child? (t : Tree) (s : Segment) : Option Tree :=
  match t with
  | .map _ => t.field? s.key
  | .array _ => s.index?.bind t.element?
  | _ => none

/-- The node that a list of segments leads to, each segment naming a child of the node before. -/
def at? (t : Tree) : List Segment → Option Tree
  | [] => some t
  | s :: rest => (t.child? s).bind (·.at? rest)

/-! ### Changes of one container -/

/-- A map with `v` under `k`; a present key keeps its position. -/
def insertField (t : Tree) (k : String) (v : Tree) : Tree :=
  match t with
  | .map fields => .map (Entries.insert fields k v)
  | t => t

/-- A field of a map and the map without it. -/
def takeField? (t : Tree) (k : String) : Option (Tree × Tree) :=
  match t with
  | .map fields => (Entries.get? fields k).map (·, .map (Entries.erase fields k))
  | _ => none

/-- An array with one more element at its end. -/
def pushElement (t : Tree) (v : Tree) : Tree :=
  match t with
  | .array items => .array (items ++ [v])
  | t => t

/-- An element of an array and the array without it; later elements move down. -/
def takeElement? (t : Tree) (i : Nat) : Option (Tree × Tree) :=
  match t with
  | .array items => items[i]?.map (·, .array (items.eraseIdx i))
  | _ => none

/-- The child that a segment names and the node without it. -/
def takeChild? (t : Tree) (s : Segment) : Option (Tree × Tree) :=
  match t with
  | .map _ => t.takeField? s.key
  | .array _ => s.index?.bind t.takeElement?
  | _ => none

/-- A node with the child that a segment names replaced; an absent child changes nothing. -/
def putChild (t : Tree) (s : Segment) (v : Tree) : Tree :=
  match t with
  | .map fields => .map (Entries.replace fields s.key v)
  | .array items =>
    match s.index? with
    | some i => .array (items.set i v)
    | none => t
  | t => t

/-- A tree with the node that a list of segments leads to replaced; an absent one changes nothing. -/
def putAt (t : Tree) : List Segment → Tree → Tree
  | [], v => v
  | s :: rest, v =>
    match t.child? s with
    | some c => t.putChild s (c.putAt rest v)
    | none => t

/-- A container with every child replaced by the same tree. -/
def fill (t : Tree) (v : Tree) : Tree :=
  match t with
  | .array items => .array (items.map fun _ => v)
  | .map fields => .map (fields.map fun (k, _) => (k, v))
  | t => t

/-- An array of the given items, in order. -/
def ofItems (items : List Tree) : Tree := .array items

/-! ### Measures and well-formedness -/

mutual

/-- The number of steps from a node to the deepest node below it. -/
def height : Tree → Nat
  | .array items => heightItems items
  | .map fields => heightFields fields
  | _ => 0

/-- One more than the greatest height among a list of trees, or zero for none. -/
def heightItems : List Tree → Nat
  | [] => 0
  | t :: rest => max (t.height + 1) (heightItems rest)

/-- One more than the greatest height among a list of fields, or zero for none. -/
def heightFields : List (String × Tree) → Nat
  | [] => 0
  | (_, t) :: rest => max (t.height + 1) (heightFields rest)

end

mutual

/-- No map of the tree has a key twice. -/
def Distinct : Tree → Prop
  | .array items => DistinctItems items
  | .map fields => Entries.Distinct fields ∧ DistinctFields fields
  | _ => True

/-- No map of any of the trees has a key twice. -/
def DistinctItems : List Tree → Prop
  | [] => True
  | t :: rest => t.Distinct ∧ DistinctItems rest

/-- No map below any of the fields has a key twice. -/
def DistinctFields : List (String × Tree) → Prop
  | [] => True
  | (_, t) :: rest => t.Distinct ∧ DistinctFields rest

end

mutual

/-- A node and every node below it, each before the nodes below it. -/
def nodes : Tree → List Tree
  | .array items => .array items :: nodesOfItems items
  | .map fields => .map fields :: nodesOfFields fields
  | t => [t]

/-- The nodes of a list of trees. -/
def nodesOfItems : List Tree → List Tree
  | [] => []
  | t :: rest => t.nodes ++ nodesOfItems rest

/-- The nodes of a list of fields. -/
def nodesOfFields : List (String × Tree) → List Tree
  | [] => []
  | (_, t) :: rest => t.nodes ++ nodesOfFields rest

end

end Tree

end DocumentPath
