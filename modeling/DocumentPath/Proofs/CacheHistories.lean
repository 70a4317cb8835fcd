import Mathlib
import DocumentPath.Proofs.FaithfulCaches

/-!
# Histories of a cache

A cache is a queue of bounded length.  `Cache.History` follows one through a sequence of calls and keeps the
segments that it had to make a pointer for since it was last cleared, the misses, and those that it has
dropped since.  `History.Tracked` ties the three together: what was dropped and what is remembered are, one
after the other, the misses.  Every call keeps this (`History.Tracked.call`), so that a cache remembers the
last misses, as many as it has room for, in the order in which they came (`Cache.remembers_last_misses`).
-/

namespace DocumentPath

namespace Entries

variable {κ α : Type*} [DecidableEq κ]

/-- An absent key is inserted at the end. -/
lemma insert_eq_append {es : Entries κ α} {k : κ} (h : get? es k = none) (v : α) :
    insert es k v = es ++ [(k, v)] := by
  induction es with
  | nil => rfl
  | cons e rest ih =>
    obtain ⟨k', v'⟩ := e
    rw [get?] at h
    split at h
    · exact absurd h (by simp)
    · next hk => rw [insert, if_neg hk, ih h, List.cons_append]

/-- Dropping the keys that came first drops the entries that came first. -/
lemma foldl_erase_take (es : Entries κ α) (n : ℕ) : (es.keys.take n).foldl erase es = es.drop n := by
  induction n generalizing es with
  | zero => simp
  | succ n ih =>
    cases es with
    | nil => simp [keys]
    | cons e rest =>
      obtain ⟨k, v⟩ := e
      have hfirst : erase ((k, v) :: rest) k = rest := if_pos rfl
      rw [keys, List.map_cons, List.take_succ_cons, List.foldl_cons, hfirst, List.drop_succ_cons]
      exact ih rest

end Entries

namespace Cache

/-! ### One call -/

/-- The cache contains the keys of its entries. -/
lemma contains_iff {c : Cache} {s : Segment} : c.contains s ↔ s ∈ Entries.keys c.entries := by
  rw [contains, ← Option.ne_none_iff_isSome, ne_eq, Entries.get?_eq_none_iff, not_not]
  rfl

/-- A hit changes nothing. -/
lemma get_of_contains {c : Cache} {s : Segment} (h : c.contains s) :
    (c.get s).cache = c ∧ (c.get s).dropped = [] := by
  obtain ⟨p, hp⟩ := Option.isSome_iff_exists.mp h
  rw [get, hp]
  exact ⟨rfl, rfl⟩

/-- A miss puts the segment at the end of the queue and drops the segments at its front that are then too
many. -/
lemma get_of_not_contains {c : Cache} (hkeys : Entries.keys c.entries = c.queue) {s : Segment}
    (h : ¬ c.contains s) :
    let surplus := c.queue.length + 1 - c.capacity
    (c.get s).cache = ⟨c.capacity, (c.entries ++ [(s, Pointer.mk [s])]).drop surplus,
        (c.queue ++ [s]).drop surplus⟩ ∧
      (c.get s).dropped = (c.queue ++ [s]).take surplus := by
  intro surplus
  have hs : Entries.get? c.entries s = none := by simpa [contains] using h
  have hgrown : Entries.keys (c.entries ++ [(s, Pointer.mk [s])]) = c.queue ++ [s] := by
    rw [Entries.keys, List.map_append, ← Entries.keys, hkeys, List.map_singleton]
  have hlen : (c.queue ++ [s]).length - c.capacity = surplus := by
    rw [List.length_append, List.length_singleton]
  rw [get, hs]
  simp only [trim, hlen, Entries.insert_eq_append hs]
  refine ⟨?_, trivial⟩
  congr 1
  · rw [← hgrown, Entries.foldl_erase_take]
  · rw [List.length_take, min_eq_left]
    rw [← hlen]
    exact Nat.sub_le _ _

/-! ### Histories -/

/-- A call on a cache. -/
inductive Call where
  | get (s : Segment)
  | contains (s : Segment)
  | clear

/-- A cache, and what has happened since it was last cleared: the segments that were asked for while they were
not remembered, and the segments dropped, both oldest first. -/
structure History where
  cache : Cache
  misses : List Segment
  dropped : List Segment

namespace History

/-- A new cache. -/
def ofCapacity (n : ℕ) : History := ⟨.ofCapacity n, [], []⟩

/-- The history after one more call.  Asking whether a segment is remembered changes nothing. -/
def call (h : History) : Call → History
  | .get s =>
    let answer := h.cache.get s
    ⟨answer.cache, if h.cache.contains s then h.misses else h.misses ++ [s],
      h.dropped ++ answer.dropped⟩
  | .contains _ => h
  | .clear => ⟨h.cache.clear, [], []⟩

/-- The history of a sequence of calls on a new cache. -/
def after (n : ℕ) (calls : List Call) : History := calls.foldl call (ofCapacity n)

/-- The cache, its queue and the misses are in step, at the given capacity. -/
structure Tracked (capacity : ℕ) (h : History) : Prop where
  capacity_eq : h.cache.capacity = capacity
  keys_eq : Entries.keys h.cache.entries = h.cache.queue
  nodup : h.cache.queue.Nodup
  faithful : h.cache.Faithful
  dropped_append : h.dropped ++ h.cache.queue = h.misses
  length_eq : h.cache.queue.length = min capacity h.misses.length

variable {capacity : ℕ} {h : History}

/-- An empty cache tracks the empty history. -/
lemma tracked_ofCapacity (n : ℕ) : (ofCapacity n).Tracked (max 1 n) where
  capacity_eq := rfl
  keys_eq := rfl
  nodup := List.nodup_nil
  faithful := faithful_ofCapacity n
  dropped_append := rfl
  length_eq := (Nat.min_zero _).symm

/-- A hit changes nothing. -/
lemma call_get_of_contains {s : Segment} (hs : h.cache.contains s) : h.call (.get s) = h := by
  obtain ⟨hcache, hdropped⟩ := Cache.get_of_contains hs
  simp only [call, hcache, hdropped, if_pos hs, List.append_nil]

/-- A miss is remembered last, and what it makes too many is dropped. -/
lemma Tracked.call_get_of_not_contains (hh : h.Tracked capacity) {s : Segment}
    (hs : ¬ h.cache.contains s) : (h.call (.get s)).Tracked capacity := by
  obtain ⟨hcache, hdropped⟩ := Cache.get_of_not_contains hh.keys_eq hs
  have hnew : s ∉ h.cache.queue := by rwa [← hh.keys_eq, ← contains_iff]
  have hfaithful : (h.cache.get s).cache.Faithful := (hh.faithful.get s).2
  rw [hh.capacity_eq] at hcache hdropped
  generalize hk : h.cache.queue.length + 1 - capacity = surplus at hcache hdropped
  simp only [call, if_neg hs]
  constructor
  case capacity_eq => rw [hcache]
  case keys_eq =>
    simp only [hcache, Entries.keys, List.map_drop, List.map_append, List.map_singleton]
    rw [← Entries.keys, hh.keys_eq]
  case nodup =>
    rw [hcache]
    have hgrown : (h.cache.queue ++ [s]).Nodup := by
      rw [← List.concat_eq_append]
      exact hh.nodup.concat hnew
    exact hgrown.sublist (List.drop_sublist _ _)
  case faithful => exact hfaithful
  case dropped_append =>
    rw [hcache, hdropped, List.append_assoc, List.take_append_drop, ← List.append_assoc,
      hh.dropped_append]
  case length_eq =>
    have hlen := hh.length_eq
    rw [hcache, List.length_drop, List.length_append, List.length_append, List.length_singleton]
    omega

/-- Every call keeps the cache in step with its misses. -/
theorem Tracked.call (hh : h.Tracked capacity) (c : Call) : (h.call c).Tracked capacity := by
  cases c with
  | get s =>
    by_cases hs : h.cache.contains s
    · rwa [call_get_of_contains hs]
    · exact hh.call_get_of_not_contains hs
  | contains s => exact hh
  | clear =>
    exact ⟨hh.capacity_eq, rfl, List.nodup_nil, faithful_clear _, rfl, (Nat.min_zero _).symm⟩

/-- After any calls the cache tracks their history. -/
theorem tracked_after (n : ℕ) (calls : List Call) : (after n calls).Tracked (max 1 n) := by
  -- every call may follow any tracked history, so the induction is on the calls from any such start
  have hrun : ∀ h : History, h.Tracked (max 1 n) → (calls.foldl History.call h).Tracked (max 1 n) := by
    induction calls with
    | nil => exact fun h hh => hh
    | cons c rest ih => exact fun h hh => ih _ (hh.call c)
  exact hrun _ (tracked_ofCapacity n)

/-- As many segments have been dropped as there are misses beyond the capacity. -/
lemma Tracked.length_dropped (hh : h.Tracked capacity) :
    h.misses.length - min capacity h.misses.length = h.dropped.length := by
  have hlen := congrArg List.length hh.dropped_append
  rw [List.length_append] at hlen
  rw [← hh.length_eq]
  omega

/-- The last misses are remembered. -/
lemma Tracked.queue_eq (hh : h.Tracked capacity) :
    h.cache.queue = h.misses.rtake (min capacity h.misses.length) := by
  rw [List.rtake, hh.length_dropped, ← hh.dropped_append, List.drop_left]

/-- The misses before them are dropped. -/
lemma Tracked.dropped_eq (hh : h.Tracked capacity) :
    h.dropped = h.misses.take (h.misses.length - min capacity h.misses.length) := by
  rw [hh.length_dropped, ← hh.dropped_append, List.take_left]

/-- A segment that has been asked for is remembered. -/
lemma Tracked.contains_get (hh : h.Tracked capacity) (hpos : 0 < capacity) (s : Segment) :
    (h.cache.get s).cache.contains s := by
  by_cases hs : h.cache.contains s
  · rwa [(Cache.get_of_contains hs).1]
  · have hkeys : Entries.keys (h.cache.get s).cache.entries = (h.cache.get s).cache.queue :=
      (hh.call_get_of_not_contains hs).keys_eq
    -- there is room for one segment at least, so the new one is not among those dropped
    have hroom : h.cache.queue.length + 1 - h.cache.capacity ≤ h.cache.queue.length := by
      rw [hh.capacity_eq]
      omega
    rw [contains_iff, hkeys, (Cache.get_of_not_contains hh.keys_eq hs).1,
      List.drop_append_of_le_length hroom]
    exact List.mem_append_right _ (List.mem_singleton_self s)

end History

/-! ### What a cache remembers -/

/-- However a cache has been used, its entries and its queue hold the same segments, none twice: those of the
last misses since it was cleared, as many as it has room for, in the order in which they came.  The misses
before them are those that it has dropped.  A hit changes nothing, and asking for a segment always gives its
pointer and leaves it remembered. -/
theorem remembers_last_misses (n : ℕ) (calls : List Call) :
    let h := History.after n calls
    let held := min h.cache.capacity h.misses.length
    h.cache.capacity = max 1 n ∧
    (Entries.keys h.cache.entries = h.cache.queue ∧ h.cache.queue.Nodup) ∧
    h.cache.queue = h.misses.rtake held ∧
    h.dropped = h.misses.take (h.misses.length - held) ∧
    (∀ e ∈ h.cache.entries, e.2 = ⟨[e.1]⟩) ∧
    (∀ s, h.cache.contains s → h.call (.get s) = h) ∧
    ∀ s, (h.cache.get s).pointer = ⟨[s]⟩ ∧ (h.cache.get s).cache.contains s := by
  intro h held
  have hh : h.Tracked (max 1 n) := History.tracked_after n calls
  have hpos : 0 < max 1 n := lt_of_lt_of_le Nat.one_pos (le_max_left 1 n)
  have hheld : held = min (max 1 n) h.misses.length := by rw [← hh.capacity_eq]
  rw [hheld]
  exact ⟨hh.capacity_eq, ⟨hh.keys_eq, hh.nodup⟩, hh.queue_eq, hh.dropped_eq, hh.faithful,
    fun s hs => History.call_get_of_contains hs,
    fun s => ⟨(hh.faithful.get s).1, hh.contains_get hpos s⟩⟩

/-- Two places, and four calls of which the third is a hit: the third segment takes the place of the first. -/
theorem remembers_last_misses_two_places :
    let a : Segment := ⟨"a"⟩
    let b : Segment := ⟨"b"⟩
    let c : Segment := ⟨"c"⟩
    let h := History.after 2 [.get a, .get b, .get a, .get c]
    h.misses = [a, b, c] ∧ h.cache.queue = [b, c] ∧ h.dropped = [a] ∧
      h.cache.contains b ∧ h.call (.get b) = h := by
  intro a b c h
  have hb : h.cache.contains b := by decide
  have hkept := (remembers_last_misses 2 [.get a, .get b, .get a, .get c]).2.2.2.2.2.1 b hb
  exact ⟨by decide, by decide, by decide, hb, hkept⟩

end Cache

end DocumentPath
