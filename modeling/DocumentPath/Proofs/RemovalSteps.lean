import Mathlib
import DocumentPath.Proofs.FaithfulCaches
import DocumentPath.Proofs.UniformPruning
import DocumentPath.Selector.Remove

/-!
# Steps of a removal

What each part of `Removal.ofStages` comes to with a faithful cache.  Removing from all children of a
node is removing from each of them (`returns_fromChildren`), and detaching all children leaves the node
empty (`returns_ofChildren`), although the elements of an array go last first.  A pointer whose last
segment names no index detaches a field of a map; the tree is then pruned at that location
(`Pointer.remove_eq_prune`).
-/

namespace DocumentPath

open Run (Returns)

/-! ### Pointers -/

/-- No child is taken exactly if there is none. -/
lemma Tree.takeChild?_eq_none_iff {t : Tree} {s : Segment} :
    t.takeChild? s = none ↔ t.child? s = none := by
  cases t with
  | array items =>
    rw [takeChild?, child?]
    cases s.index? with
    | none => simp
    | some i => simp [takeElement?, element?]
  | map fields => simp [takeChild?, takeField?, child?, field?]
  | null | bool | number | text => simp [takeChild?, child?]

namespace Pointer

/-- Where the last container has no such child a removal changes nothing. -/
lemma remove_eq_none {p : Pointer} {t : Tree} (h : ∀ s parent, p.tail? = some s →
    p.head.at? t = some parent → parent.takeChild? s = none) : p.remove t = (none, t) := by
  rw [remove]
  cases hs : p.tail? with
  | none => rfl
  | some s =>
    cases hparent : p.head.at? t with
    | none => rfl
    | some parent =>
      have htake := h s parent hs hparent
      simp [htake]

/-- Where nothing is, nothing is detached. -/
lemma remove_of_absent {p : Pointer} {t : Tree} (h : p.at? t = none) : p.remove t = (none, t) := by
  refine remove_eq_none fun s parent hs hparent => Tree.takeChild?_eq_none_iff.mpr ?_
  rwa [at?_of_tail? hs, hparent, Option.bind_some] at h

/-- Where the last container has such a child a removal takes it and puts the container back. -/
lemma remove_eq_some {p : Pointer} {t parent parent' v : Tree} {s : Segment}
    (hs : p.tail? = some s) (hparent : p.head.at? t = some parent)
    (htake : parent.takeChild? s = some (v, parent')) :
    p.remove t = (some v, t.putAt p.head.segments parent') := by
  simp [remove, hs, hparent, htake]

/-- A key that names no index is taken from a map only. -/
lemma takeChild?_eq_of_plain {t : Tree} {k : Segment} (hk : k.isIndex = false) :
    t.takeChild? k = (t.child? k).map fun v => (v, .map (Entries.erase t.entries k.key)) := by
  have hindex : k.index? = none := by simpa [Segment.isIndex] using hk
  cases t with
  | map fields => rfl
  | array items => simp [Tree.takeChild?, Tree.child?, hindex]
  | null | bool | number | text => rfl

/-- Removing a key that names no index leaves the tree without that location. -/
theorem remove_eq_prune {p : Pointer} {k : Segment} (hk : p.tail? = some k)
    (hplain : k.isIndex = false) {t : Tree} (ht : t.WellFormed) {keep : List Segment → Bool}
    (hkeep : ∀ q, keep q = true ↔ ¬ p.segments <+: q) : p.remove t = (p.at? t, t.prune keep) := by
  obtain ⟨segments⟩ := p
  obtain ⟨w, rfl⟩ := List.getLast?_eq_some_iff.mp hk
  have hhead : (⟨w ++ [k]⟩ : Pointer).head = ⟨w⟩ := by simp [head]
  cases hv : (⟨w ++ [k]⟩ : Pointer).at? t with
  | none => rw [remove_of_absent hv, Tree.prune_eq_self_of_none ht hv fun q hq => (hkeep q).mpr hq]
  | some v =>
    rw [at?_of_tail? hk, hhead] at hv
    obtain ⟨parent, hparent, hchild⟩ := Option.bind_eq_some_iff.mp hv
    have htake := takeChild?_eq_of_plain (t := parent) hplain
    rw [hchild, Option.map_some] at htake
    rw [remove_eq_some hk (by rw [hhead]; exact hparent) htake, hhead]
    cases parent with
    | map fields =>
      have hbelow : ∀ q, (keep (w ++ q) = true ↔ ¬ [k] <+: q) := fun q => by
        rw [hkeep, List.prefix_append_right_inj]
      have hroot : keep w = true := by
        have := (hbelow []).mpr (by simp)
        rwa [List.append_nil] at this
      rw [Tree.prune_eq_putAt ht hparent hroot fun q hq => (hkeep q).mpr fun h =>
          hq ((List.prefix_append w [k]).trans h),
        Tree.prune_eq_erase (k := k) (ht.at hparent).sound]
      · rfl
      · rw [← Bool.not_eq_true, hbelow]
        simp
      · intro s q hne
        rw [hbelow]
        exact fun h => hne (List.cons_prefix_cons.mp h).1.symm
    | array | null | bool | number | text =>
      have hindex : k.index? = none := by simpa [Segment.isIndex] using hplain
      exact absurd hchild (by simp [Tree.child?, hindex])

end Pointer

namespace Removal

/-! ### Children -/

variable {f : Tree → Run Removal} {g : Tree → Removal}

/-- A removal from all items comes to what it comes to in each of them. -/
lemma returns_fromItems {items : List Tree} (h : ∀ c ∈ items, Returns (f c) (g c)) :
    Returns (fromItems f items)
      (items.flatMap fun c => (g c).removed, items.map fun c => (g c).tree) := by
  induction items with
  | nil => exact Run.returns_pure _
  | cons c rest ih =>
    exact (h c List.mem_cons_self).bind
      ((ih fun c' hc' => h c' (List.mem_cons_of_mem _ hc')).bind (Run.returns_pure _))

/-- A removal from all fields comes to what it comes to in each of them. -/
lemma returns_fromFields {fields : List (String × Tree)}
    (h : ∀ e ∈ fields, Returns (f e.2) (g e.2)) : Returns (fromFields f fields)
      (fields.flatMap fun e => (g e.2).removed, fields.map fun e => (e.1, (g e.2).tree)) := by
  induction fields with
  | nil => exact Run.returns_pure _
  | cons e rest ih =>
    exact (h e List.mem_cons_self).bind
      ((ih fun e' he' => h e' (List.mem_cons_of_mem _ he')).bind (Run.returns_pure _))

/-- Removing from all children is removing from each of them. -/
theorem returns_fromChildren {t : Tree} (h : ∀ c ∈ t.children, Returns (f c) (g c)) :
    Returns (fromChildren f t)
      ⟨t.children.flatMap fun c => (g c).removed, t.mapChildren fun c => (g c).tree⟩ := by
  cases t with
  | array items => exact (returns_fromItems h).bind (Run.returns_pure _)
  | map fields =>
    have hfields : ∀ e ∈ fields, Returns (f e.2) (g e.2) := fun e he =>
      h e.2 (List.mem_map_of_mem (f := Prod.snd) he)
    rw [Tree.children, List.flatMap_map]
    exact (returns_fromFields hfields).bind (Run.returns_pure _)
  | null | bool | number | text => exact Run.returns_pure _

/-- Going downwards from a node first removes from the node and then goes on from what is left of its
children. -/
lemma returns_downwards_succ {t : Tree} {depth : ℕ} {r r' : Removal} (h : Returns (f t) r)
    (hbelow : Returns (fromChildren (downwards f depth) r.tree) r') :
    Returns (downwards f (depth + 1) t) ⟨r.removed ++ r'.removed, r'.tree⟩ :=
  h.bind (hbelow.bind (Run.returns_pure _))

/-! ### Detaching all children -/

/-- Detaching a child by its segment. -/
lemma ofPointer_eq {t t' v : Tree} {s : Segment} (h : t.takeChild? s = some (v, t')) :
    ofPointer ⟨[s]⟩ t = ⟨[v], t'⟩ := by
  have hremove : (⟨[s]⟩ : Pointer).remove t = (some v, t') := Pointer.remove_eq_some rfl rfl h
  rw [ofPointer, hremove]
  rfl

/-- There may be no such child. -/
lemma ofPointer_eq_none {t : Tree} {s : Segment} (h : t.takeChild? s = .none) :
    ofPointer ⟨[s]⟩ t = none t := by
  have hremove : (⟨[s]⟩ : Pointer).remove t = (.none, t) :=
    Pointer.remove_of_absent ((Tree.at?_singleton t s).trans (Tree.takeChild?_eq_none_iff.mp h))
  rw [ofPointer, hremove]
  rfl

/-- Removing children one after another begins with the first one. -/
lemma returns_ofSegments_cons {s : Segment} {rest : List Segment} {t t' v : Tree} {r : Removal}
    (h : t.takeChild? s = some (v, t')) (hr : Returns (ofSegments rest t') r) :
    Returns (ofSegments (s :: rest) t) ⟨v :: r.removed, r.tree⟩ := by
  rw [ofSegments]
  refine (Session.returns_pointer s).bind ?_
  rw [ofPointer_eq h]
  exact hr.bind (Run.returns_pure _)

/-- Removing the fields of a map one after another leaves the empty map. -/
lemma returns_ofSegments_fields (fields : List (String × Tree)) :
    Returns (ofSegments (fields.map fun e => ⟨e.1⟩) (.map fields))
      ⟨fields.map Prod.snd, .map []⟩ := by
  induction fields with
  | nil => exact Run.returns_pure _
  | cons e rest ih =>
    have htake : (Tree.map (e :: rest)).takeChild? ⟨e.1⟩ = some (e.2, .map rest) := by
      simp [Tree.takeChild?, Tree.takeField?, Entries.get?, Entries.erase]
    exact returns_ofSegments_cons htake ih

/-- Removing the items of an array from the last one on leaves the empty array. -/
lemma returns_ofSegments_items {items : List Tree} (h : items.length ≤ Segment.indexBound) :
    Returns (ofSegments ((List.range items.length).map Segment.ofIndex).reverse (.array items))
      ⟨items.reverse, .array []⟩ := by
  induction items using List.reverseRecOn with
  | nil => exact Run.returns_pure _
  | append_singleton items x ih =>
    have hlen : items.length < Segment.indexBound := by
      rw [List.length_append, List.length_singleton] at h
      exact h
    have htake : (Tree.array (items ++ [x])).takeChild? (.ofIndex items.length)
        = some (x, .array items) := by
      simp [Tree.takeChild?, Tree.takeElement?, Segment.index?_ofIndex hlen,
        List.eraseIdx_append_of_length_le]
    rw [List.length_append, List.length_singleton, List.range_succ, List.map_append,
      List.reverse_append, List.reverse_append]
    exact returns_ofSegments_cons htake (ih hlen.le)

/-- Detaching all children returns them in order and leaves the node empty, if every element of an array has
an index. -/
theorem returns_ofChildren {t : Tree} (ht : t.kind = .array → t.children.length ≤ Segment.indexBound)
    {keep : List Segment → Bool} (hkeep : ∀ s, keep [s] = false) :
    Returns (ofChildren t) ⟨t.children, t.prune keep⟩ := by
  cases t with
  | array items =>
    have hempty : (Tree.array items).prune keep = .array [] := by
      rw [Tree.prune, Tree.pruneItems_eq]
      simp [hkeep]
    have hsegments : (Tree.array items).members.map Prod.fst
        = (List.range items.length).map Segment.ofIndex := by
      rw [Tree.members, List.map_map, List.range_eq_range', ← List.zipIdx_map_snd 0 items,
        List.map_map]
      rfl
    have hitems : (Tree.array items).children = items.reverse.reverse :=
      (List.reverse_reverse items).symm
    rw [hempty, ofChildren, hsegments, hitems]
    exact (returns_ofSegments_items (ht rfl)).bind (Run.returns_pure _)
  | map fields =>
    have hempty : (Tree.map fields).prune keep = .map [] := by
      rw [Tree.prune, Tree.pruneFields_eq]
      simp [hkeep]
    have hsegments : (Tree.map fields).members.map Prod.fst
        = fields.map fun e => (⟨e.1⟩ : Segment) := by
      rw [Tree.members, List.map_map]
      rfl
    rw [hempty, ofChildren, hsegments]
    exact returns_ofSegments_fields fields
  | null | bool | number | text => exact Run.returns_pure _

/-! ### Stages -/

/-- Removing through a pointer that does not end the path goes on at its node. -/
lemma ofStages_literal {p : Pointer} {rest : List Stage} (h : rest ≠ [.terminal]) (t : Tree) :
    ofStages (.literal p :: rest) t = (p.at? t).elim (return none t) fun c => do
      let r ← ofStages rest c
      return ⟨r.removed, t.putAt p.segments r.tree⟩ := by
  rw [ofStages]
  · cases p.at? t <;> rfl
  · exact h

/-- Removing through a wildcard that does not end the path goes on at all children. -/
lemma ofStages_wildcard {rest : List Stage} (h : rest ≠ [.terminal]) (t : Tree) :
    ofStages (.wildcard :: rest) t = fromChildren (ofStages rest) t := by
  rw [ofStages]
  exact h

/-- Removing through a descent that does not end the path goes on at all nodes. -/
lemma ofStages_descent {rest : List Stage} (h : rest ≠ [.terminal]) (t : Tree) :
    ofStages (.descent :: rest) t = downwards (ofStages rest) t.height t := by
  rw [ofStages]
  exact h

end Removal

end DocumentPath
