import DocumentPath.Pointer.Basic

/-!
# Trees of paths

A `PathTree` is a prefix tree of lists of segments: every element holds the path that leads to it, and
its children in the order in which they were first asked for.  `PathTree.insert` walks a chain of
segments, creating what is missing, and `PathTree.ofTree` records every location of a document.
`PathTree.paths` lists the recorded paths, children before their parents and the root last, and
`PathTree.leaves` those of them that have nothing below.
-/

namespace DocumentPath

/-- An element of a prefix tree: its path and its children. -/
inductive PathTree where
  | element (path : List Segment) (children : List PathTree)

namespace PathTree

/-- The tree that holds the root path only. -/
def empty : PathTree := element [] []

/-- The path that leads to the element. -/
def path : PathTree → List Segment
  | element path _ => path

/-- The children in the order of their first mention. -/
def children : PathTree → List PathTree
  | element _ children => children

/-- Whether the element has no children. -/
def isLeaf (e : PathTree) : Bool := e.children.isEmpty

/-- The child reached by a segment is changed where it stands, or created and changed at the end.  The
first argument is the path of the parent. -/
def changeAmong (path : List Segment) (s : Segment) (f : PathTree → PathTree) :
    List PathTree → List PathTree
  | [] => [f (element (path ++ [s]) [])]
  | e :: rest => if e.path.getLast? = some s then f e :: rest else e :: changeAmong path s f rest

/-- The element with the child reached by a segment changed, and created before if it is absent. -/
def changeChild (s : Segment) (f : PathTree → PathTree) : PathTree → PathTree
  | element path children => element path (changeAmong path s f children)

/-- The element with a chain of segments recorded below it. -/
def insert : List Segment → PathTree → PathTree
  | [], e => e
  | s :: rest, e => e.changeChild s (insert rest)

/-- The element that a chain of segments leads to, if it is recorded. -/
def find? : List Segment → PathTree → Option PathTree
  | [], e => some e
  | s :: rest, e =>
    (e.children.find? (·.path.getLast? == some s)).bind (find? rest)

mutual

/-- Records every location of a document below an element. -/
def record : Tree → PathTree → PathTree
  | .array items, e => recordItems 0 items e
  | .map fields, e => recordFields fields e
  | _, e => e

/-- Records the items of an array, the first of them at index `i`. -/
def recordItems (i : Nat) : List Tree → PathTree → PathTree
  | [], e => e
  | t :: rest, e => recordItems (i + 1) rest (e.changeChild (.ofIndex i) (record t))

/-- Records the fields of a map. -/
def recordFields : List (String × Tree) → PathTree → PathTree
  | [], e => e
  | (k, t) :: rest, e => recordFields rest (e.changeChild ⟨k⟩ (record t))

end

/-- Every location of a document. -/
def ofTree (t : Tree) : PathTree := record t empty

mutual

/-- Every recorded path, children before their parents. -/
def paths : PathTree → List (List Segment)
  | element path children => pathsOf children ++ [path]

/-- The recorded paths of a list of elements. -/
def pathsOf : List PathTree → List (List Segment)
  | [] => []
  | e :: rest => e.paths ++ pathsOf rest

end

mutual

/-- The recorded paths of elements without children. -/
def leaves : PathTree → List (List Segment)
  | element path [] => [path]
  | element _ (e :: rest) => leavesOf (e :: rest)

/-- The paths of the leaves of a list of elements. -/
def leavesOf : List PathTree → List (List Segment)
  | [] => []
  | e :: rest => e.leaves ++ leavesOf rest

end

/-- Whether nothing but the root path is recorded. -/
def isEmpty (e : PathTree) : Bool := e.isLeaf

/-- The number of recorded paths. -/
def size (e : PathTree) : Nat := e.paths.length

end PathTree

end DocumentPath
