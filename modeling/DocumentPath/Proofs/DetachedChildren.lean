import Mathlib
import DocumentPath.Proofs.CacheHistories
import DocumentPath.Proofs.WildcardRemovals

/-!
# Detached children

Detaching all children of a node names them first and then takes one after another, through pointers from
the cache.  Elements of an array move down when an element before them is taken, so an array gives up its last
element first (`Tree.detaching`).  Neither the order nor the cache shows in the result: the children come back
in their own order, and the node is left bare, however the cache was used before and whatever it drops
meanwhile (`Removal.detaches_children`).  The cache is left as it would be after calls for the segments of the
children (`Removal.cache_ofChildren`).
-/

namespace DocumentPath

open Cache (History)

/-- The segments of the children of a node in the order in which they are detached. -/
def Tree.detaching (t : Tree) : List Segment :=
  match t.kind with
  | .array => (t.members.map Prod.fst).reverse
  | _ => t.members.map Prod.fst

namespace Removal

/-! ### Use of the cache -/

/-- Detaching the children that segments name asks the cache for those segments, in their order. -/
lemma cache_ofSegments (segments : List Segment) (t : Tree) (h : History) (events : List Event) :
    ((ofSegments segments t).run ⟨h.cache, events⟩).2.cache
      = ((segments.map Cache.Call.get).foldl History.call h).cache := by
  induction segments generalizing t h events with
  | nil => rfl
  | cons s rest ih =>
    let answer := h.cache.get s
    -- the session after the first segment is that of the history with one more call
    exact ih (ofPointer answer.pointer t).tree (h.call (.get s))
      (events ++ answer.dropped.map .evicted)

/-- Detaching all children asks the cache for their segments, in the order in which they are detached. -/
theorem cache_ofChildren (t : Tree) (n : ℕ) (calls : List Cache.Call) (events : List Event) :
    ((ofChildren t).run ⟨(History.after n calls).cache, events⟩).2.cache
      = (History.after n (calls ++ t.detaching.map .get)).cache := by
  have hafter : History.after n (calls ++ t.detaching.map .get)
      = (t.detaching.map .get).foldl History.call (History.after n calls) := List.foldl_append
  rw [hafter]
  unfold ofChildren Tree.detaching
  cases t.kind with
  | array => exact cache_ofSegments _ t _ events
  | map | value => exact cache_ofSegments _ t _ events

/-! ### Emptied nodes -/

/-- Detaching all children returns them in order and leaves the bare node. -/
lemma returns_ofChildren_bare {t : Tree}
    (ht : t.kind = .array → t.children.length ≤ Segment.indexBound) :
    (ofChildren t).Returns ⟨t.children, t.bare⟩ := by
  rw [← Tree.truncate_zero]
  exact returns_ofChildren ht fun s => by simp

/-- Detaching all children is complete and ordered.  From a cache of any capacity and after any calls, it
returns the children of a node in their own order and as they were, and leaves the node bare: a container of
the same kind without children, or the same value.  Where several nodes are emptied in turn, the children of
each are appended to those of the nodes before it.  The cache is left as the calls for the segments of the
children leave it. -/
theorem detaches_children (n : ℕ) (calls : List Cache.Call) (events : List Event) {t : Tree}
    (ht : t.kind = .array → t.children.length ≤ Segment.indexBound) :
    let σ : Session := ⟨(History.after n calls).cache, events⟩
    ((ofChildren t).run σ).1 = ⟨t.children, t.bare⟩ ∧
    (t.bare.kind = t.kind ∧ t.bare.children = [] ∧
      (t.kind = .value → t.bare = t ∧ t.children = [])) ∧
    (∀ nodes : List Tree, (∀ u ∈ nodes, u.kind = .array → u.children.length ≤ Segment.indexBound) →
      ((fromItems ofChildren nodes).run σ).1 = (nodes.flatMap Tree.children, nodes.map Tree.bare)) ∧
    ((ofChildren t).run σ).2.cache = (History.after n (calls ++ t.detaching.map .get)).cache := by
  intro σ
  have hfaithful : σ.cache.Faithful := (History.tracked_after n calls).faithful
  refine ⟨(returns_ofChildren_bare ht σ hfaithful).1,
    ⟨t.kind_bare, t.children_bare, fun hvalue => ?_⟩, fun nodes hnodes => ?_,
    cache_ofChildren t n calls events⟩
  · have hbare := Tree.bare_of_kind_value hvalue
    exact ⟨hbare, hbare ▸ t.children_bare⟩
  · have heach : ∀ u ∈ nodes, (ofChildren u).Returns ⟨u.children, u.bare⟩ := fun u hu =>
      returns_ofChildren_bare (hnodes u hu)
    exact (returns_fromItems heach σ hfaithful).1

/-- With room for a single pointer every new call drops the pointer before it, and equal elements stay
apart. -/
theorem detaches_children_single_place :
    let calls : List Cache.Call := [.get ⟨"2"⟩, .contains ⟨"0"⟩, .get ⟨"1"⟩]
    let one : Tree := .number (.int 1)
    let t : Tree := .array [one, .array [.null], one]
    ((ofChildren t).run ⟨(History.after 0 calls).cache, []⟩).1
        = ⟨[one, .array [.null], one], .array []⟩ ∧
      ((ofChildren t).run ⟨(History.after 0 calls).cache, []⟩).2.cache.queue = [⟨"0"⟩] := by
  intro calls one t
  obtain ⟨hresult, -, -, hcache⟩ := detaches_children 0 calls [] (t := t) fun _ => by decide
  refine ⟨hresult, ?_⟩
  rw [hcache]
  decide

end Removal

end DocumentPath
