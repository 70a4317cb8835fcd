import DocumentPath.Pointer.Basic

/-!
# The pointer cache

A bounded memory of the pointers of single segments.  `Cache.get` answers with the pointer of a segment
and remembers it; when that makes the cache too large, the segments that came first are dropped.
Asking again does not renew a segment's place.
-/

namespace DocumentPath

/-- A bounded memory of pointers of single segments: the pointers by segment, and the segments in the
order in which they came. -/
structure Cache where
  capacity : Nat
  entries : Entries Segment Pointer
  queue : List Segment

namespace Cache

/-- The capacity of a cache that is not given one. -/
def defaultCapacity : Nat := 200

/-- An empty cache of the given capacity, at least one. -/
def ofCapacity (n : Nat) : Cache := ⟨max 1 n, [], []⟩

/-- The number of remembered pointers. -/
def size (c : Cache) : Nat := c.entries.length

/-- Whether the pointer of a segment is remembered. -/
def contains (c : Cache) (s : Segment) : Bool := (Entries.get? c.entries s).isSome

/-- The cache without its entries. -/
def clear (c : Cache) : Cache := ⟨c.capacity, [], []⟩

/-- What asking a cache gives: the pointer, the cache afterwards, and the segments dropped. -/
structure Answer where
  pointer : Pointer
  cache : Cache
  dropped : List Segment

/-- The cache without the segments that came first, as many as it has too many. -/
def trim (c : Cache) : Cache × List Segment :=
  let surplus := c.queue.take (c.queue.length - c.capacity)
  (⟨c.capacity, surplus.foldl Entries.erase c.entries, c.queue.drop surplus.length⟩, surplus)

/-- The pointer of a segment, remembered from then on. -/
def get (c : Cache) (s : Segment) : Answer :=
  match Entries.get? c.entries s with
  | some p => ⟨p, c, []⟩
  | none =>
    let p : Pointer := ⟨[s]⟩
    let (cache, dropped) :=
      trim ⟨c.capacity, Entries.insert c.entries s p, c.queue ++ [s]⟩
    ⟨p, cache, dropped⟩

end Cache

end DocumentPath
