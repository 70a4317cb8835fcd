import DocumentPath.Error

/-!
# Pointers

A `Pointer` is an absolute path: a list of segments that leads from a root to exactly one location.
`Pointer.text` writes it with a slash before every segment, and `Pointer.parse` reads it back; a path
with an asterisk, a bad escape or no leading slash is refused.  `Pointer.at?` reads the node at the
location.  The grammar of single segments is shared with patterns, which allow asterisks.
-/

namespace DocumentPath

/-! ### The grammar of paths -/

/-- The segments between slashes, still escaped. -/
def splitSlashes : List Char → List (List Char)
  | [] => [[]]
  | c :: rest =>
    if c = '/' then [] :: splitSlashes rest
    else
      match splitSlashes rest with
      | [] => [[c]]
      | raw :: raws => (c :: raw) :: raws

/-- The escaped segments of a path that is not empty: each follows a slash. -/
def rawSegments : List Char → Except PathFault (List (List Char))
  | '/' :: body => .ok (splitSlashes body)
  | _ => .error .noLeadingSlash

/-- The characters of a key, from its escaped form. -/
def unescape : List Char → Except PathFault (List Char)
  | [] => .ok []
  | '~' :: '0' :: rest => (unescape rest).map ('~' :: ·)
  | '~' :: '1' :: rest => (unescape rest).map ('/' :: ·)
  | '~' :: c :: _ => .error (.invalidEscape c)
  | ['~'] => .error .danglingEscape
  | c :: rest => (unescape rest).map (c :: ·)

/-- The segment of an escaped form. -/
def Segment.ofRaw (raw : List Char) : Except PathFault Segment :=
  (unescape raw).map fun cs => ⟨String.ofList cs⟩

/-- Applies a function that may fail to each element in order. -/
def mapUntilFault {ε α β : Type} (f : α → Except ε β) : List α → Except ε (List β)
  | [] => .ok []
  | a :: rest =>
    match f a with
    | .error e => .error e
    | .ok b => (mapUntilFault f rest).map (b :: ·)

/-! ### Pointers -/

/-- A path that leads to exactly one location. -/
structure Pointer where
  segments : List Segment
  deriving DecidableEq, Repr

namespace Pointer

/-- The pointer to the root. -/
def root : Pointer := ⟨[]⟩

/-- Whether the pointer leads to the root. -/
def isRoot (p : Pointer) : Bool := p.segments.isEmpty

/-- The characters of the text of a list of segments. -/
def charsOf (segments : List Segment) : List Char :=
  segments.flatMap fun s => '/' :: s.chars

/-- The text of the pointer: every segment after a slash. -/
def text (p : Pointer) : String := String.ofList (charsOf p.segments)

/-- The last segment; the root has none. -/
def tail? (p : Pointer) : Option Segment := p.segments.getLast?

/-- The pointer to the container of the location; the root is its own. -/
def head (p : Pointer) : Pointer := ⟨p.segments.dropLast⟩

/-- The pointer that first follows `p` and then `q`. -/
def append (p q : Pointer) : Pointer := ⟨p.segments ++ q.segments⟩

/-- The segment of an escaped form in which asterisks are not allowed. -/
def readSegment (raw : List Char) : Except PathFault Segment :=
  if '*' ∈ raw then .error (.wildcardInPointer (String.ofList raw)) else Segment.ofRaw raw

/-- The pointer that a list of characters writes. -/
def ofChars : List Char → Except PathFault Pointer
  | [] => .ok root
  | cs =>
    match rawSegments cs with
    | .error fault => .error fault
    | .ok raws => (mapUntilFault readSegment raws).map Pointer.mk

/-- The pointer that a text writes. -/
def parse (path : String) : Except PathError Pointer :=
  (ofChars path.toList).mapError (PathError.malformed path)

/-- The node at the location, if there is one. -/
def at? (p : Pointer) (t : Tree) : Option Tree := t.at? p.segments

/-- The tree with the node at the location replaced, if there is one. -/
def replace? (p : Pointer) (v t : Tree) : Option Tree :=
  (p.at? t).map fun _ => t.putAt p.segments v

end Pointer

/-- The error of an obstacle met by an operation at a pointer. -/
def Obstacle.at (o : Obstacle) (p : Pointer) : PathError := .invalidOperation p.text o.message

end DocumentPath
