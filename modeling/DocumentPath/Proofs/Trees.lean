import Mathlib
import DocumentPath.Proofs.Segments
import DocumentPath.Tree.Basic

/-!
# Well-formed trees

What a document in memory always satisfies is `Tree.WellFormed`: the keys of every map are distinct, and
every array is short enough for each of its elements to have an index.  On such trees the two ways of
going down agree: `mem_members_iff` says that the listed children of a node are exactly those which its
segments name.  Facts about all nodes of a tree are proved with `Tree.byChildren`, by induction along the
children.  `Tree.PlainKeys` is a condition that not every document meets: that no key of a map could be
taken for an index.
-/

namespace DocumentPath

namespace Entries

variable {κ α : Type*} [DecidableEq κ]

/-- A value read from a list of entries is one of its entries. -/
lemma mem_of_get? {es : Entries κ α} {k : κ} {v : α} (h : get? es k = some v) : (k, v) ∈ es := by
  induction es with
  | nil => simp at h
  | cons e rest ih =>
    obtain ⟨k', v'⟩ := e
    unfold get? at h
    split at h
    · next hk =>
      rw [hk, Option.some.inj h]
      exact List.mem_cons_self
    · exact List.mem_cons_of_mem _ (ih h)

/-- With distinct keys every entry is read under its key. -/
lemma get?_eq_some_iff {es : Entries κ α} (hd : Distinct es) {k : κ} {v : α} :
    get? es k = some v ↔ (k, v) ∈ es := by
  refine ⟨mem_of_get?, fun h => ?_⟩
  induction es with
  | nil => simp at h
  | cons e rest ih =>
    obtain ⟨k', v'⟩ := e
    have hd' : k' ∉ rest.map Prod.fst ∧ Distinct rest := List.nodup_cons.mp hd
    unfold get?
    rcases List.mem_cons.mp h with heq | hmem
    · rw [Prod.mk.injEq] at heq
      rw [if_pos heq.1.symm, heq.2]
    · have hne : k' ≠ k := fun hk => hd'.1 (hk ▸ List.mem_map_of_mem (f := Prod.fst) hmem)
      rw [if_neg hne]
      exact ih hd'.2 hmem

/-- A key is absent if nothing is read under it. -/
lemma get?_eq_none_iff {es : Entries κ α} {k : κ} : get? es k = none ↔ k ∉ es.map Prod.fst := by
  induction es with
  | nil => simp
  | cons e rest ih =>
    obtain ⟨k', v'⟩ := e
    unfold get?
    by_cases hk : k' = k
    · simp [hk]
    · simp [hk, Ne.symm hk, ih]

end Entries

namespace Tree

/-! ### Going down along the children -/

/-- The items of an array are smaller than the array. -/
lemma sizeOf_lt_of_mem_children {t c : Tree} (h : c ∈ t.children) : sizeOf c < sizeOf t := by
  cases t with
  | array items =>
    have := List.sizeOf_lt_of_mem (show c ∈ items from h)
    simp only [array.sizeOf_spec]
    omega
  | map fields =>
    obtain ⟨f, hf, rfl⟩ := List.mem_map.mp (show c ∈ fields.map Prod.snd from h)
    have := List.sizeOf_lt_of_mem hf
    have hsnd : sizeOf f.2 < sizeOf f := by
      obtain ⟨k, v⟩ := f
      simp only [Prod.mk.sizeOf_spec]
      omega
    simp only [map.sizeOf_spec]
    omega
  | null | bool | number | text => exact absurd h (by simp [children])

/-- What holds of a node whenever it holds of its children holds of every tree. -/
@[elab_as_elim]
theorem byChildren {motive : Tree → Prop} (step : ∀ t, (∀ c ∈ t.children, motive c) → motive t)
    (t : Tree) : motive t :=
  step t fun c hc =>
    have : sizeOf c < sizeOf t := sizeOf_lt_of_mem_children hc
    byChildren step c
termination_by sizeOf t

/-- The children of a node are its members without their segments. -/
lemma map_snd_members (t : Tree) : t.members.map Prod.snd = t.children := by
  cases t with
  | array items =>
    unfold members children
    rw [List.map_map]
    exact List.zipIdx_map_fst 0 items
  | map fields =>
    unfold members children
    rw [List.map_map]
    rfl
  | null | bool | number | text => rfl

/-- A member of a node is one of its children. -/
lemma mem_children_of_mem_members {t c : Tree} {s : Segment} (h : (s, c) ∈ t.members) :
    c ∈ t.children :=
  map_snd_members t ▸ List.mem_map_of_mem (f := Prod.snd) h

/-- The nodes of items are those of each of them. -/
lemma nodesOfItems_eq (items : List Tree) : nodesOfItems items = items.flatMap nodes := by
  induction items with
  | nil => rfl
  | cons t rest ih => rw [nodesOfItems, ih, List.flatMap_cons]

/-- The nodes of fields are those of each of their values. -/
lemma nodesOfFields_eq (fields : List (String × Tree)) :
    nodesOfFields fields = (fields.map Prod.snd).flatMap nodes := by
  induction fields with
  | nil => rfl
  | cons f rest ih =>
    obtain ⟨k, t⟩ := f
    rw [nodesOfFields, ih, List.map_cons, List.flatMap_cons]

/-- The nodes of a tree are its root and the nodes of the children. -/
theorem nodes_eq (t : Tree) : t.nodes = t :: t.children.flatMap nodes := by
  cases t with
  | array items => rw [nodes, nodesOfItems_eq, children]
  | map fields => rw [nodes, nodesOfFields_eq, children]
  | null | bool | number | text => simp [nodes, children]

/-! ### Well-formed trees -/

/-- A node is sound if segments can name all its children, each child by a segment of its own. -/
def Sound : Tree → Prop
  | .array items => items.length ≤ Segment.indexBound
  | .map fields => Entries.Distinct fields
  | _ => True

instance : (t : Tree) → Decidable t.Sound
  | .array items => inferInstanceAs (Decidable (items.length ≤ Segment.indexBound))
  | .map fields => inferInstanceAs (Decidable (fields.map Prod.fst).Nodup)
  | .null | .bool _ | .number _ | .text _ => .isTrue trivial

/-- A tree is well-formed if all its nodes are sound, as they are in every document in memory. -/
def WellFormed (t : Tree) : Prop := ∀ u ∈ t.nodes, u.Sound

instance (t : Tree) : Decidable t.WellFormed := inferInstanceAs (Decidable (∀ u ∈ t.nodes, u.Sound))

/-- A tree is well-formed if its root is sound and its children are well-formed. -/
theorem wellFormed_iff (t : Tree) : t.WellFormed ↔ t.Sound ∧ ∀ c ∈ t.children, c.WellFormed := by
  unfold WellFormed
  rw [nodes_eq t]
  simp only [List.mem_cons, List.mem_flatMap, forall_eq_or_imp, forall_exists_index, and_imp]
  exact and_congr_right fun _ => ⟨fun h c hc u hu => h u c hc hu, fun h u c hc hu => h c hc u hu⟩

/-- A well-formed tree is sound at its root. -/
lemma WellFormed.sound {t : Tree} (h : t.WellFormed) : t.Sound := ((wellFormed_iff t).mp h).1

/-- Every element of a sound array has an index. -/
lemma Sound.length_children_le {t : Tree} (ht : t.Sound) (hkind : t.kind = .array) :
    t.children.length ≤ Segment.indexBound := by
  cases t with
  | array items => exact ht
  | null | bool | number | text | map => exact absurd hkind (by simp [kind])

/-- The listed children of a sound node are those that its segments name. -/
theorem mem_members_iff {t : Tree} (ht : t.Sound) {s : Segment} {c : Tree} :
    (s, c) ∈ t.members ↔ t.child? s = some c := by
  cases t with
  | array items =>
    have hbound : items.length ≤ Segment.indexBound := ht
    simp only [members, child?, element?, List.mem_map, Prod.mk.injEq, Prod.exists,
      List.mem_zipIdx_iff_getElem?, Option.bind_eq_some_iff]
    constructor
    · rintro ⟨c', i, hget, rfl, rfl⟩
      have hi : i < items.length := (List.getElem?_eq_some_iff.mp hget).1
      exact ⟨i, Segment.index?_ofIndex (hi.trans_le hbound), hget⟩
    · rintro ⟨i, hs, hget⟩
      exact ⟨c, i, hget, (Segment.eq_ofIndex_of_index? hs).symm, rfl⟩
  | map fields =>
    have hdistinct : Entries.Distinct fields := ht
    simp only [members, child?, field?, List.mem_map, Prod.mk.injEq, Prod.exists]
    rw [Entries.get?_eq_some_iff hdistinct]
    constructor
    · rintro ⟨k, c', hmem, rfl, rfl⟩
      exact hmem
    · intro hmem
      exact ⟨s.key, c, hmem, rfl, rfl⟩
  | null | bool | number | text => simp [members, child?]

/-- The members of a sound node stand under different segments. -/
theorem nodup_members {t : Tree} (ht : t.Sound) : (t.members.map Prod.fst).Nodup := by
  cases t with
  | array items =>
    have hmap : (members (.array items)).map Prod.fst
        = (List.range items.length).map Segment.ofIndex := by
      unfold members
      rw [List.map_map, List.range_eq_range', ← List.zipIdx_map_snd 0 items, List.map_map]
      rfl
    rw [hmap]
    exact List.nodup_range.map Segment.ofIndex_injective
  | map fields =>
    have hmap : (members (.map fields)).map Prod.fst = (fields.map Prod.fst).map Segment.mk := by
      unfold members
      rw [List.map_map, List.map_map]
      rfl
    rw [hmap]
    exact List.Nodup.map (fun _ _ h => (Segment.mk.inj h)) ht
  | null | bool | number | text => simp [members]

/-- A child that a segment names is one of the children of the node. -/
lemma mem_children_of_child? {t c : Tree} {s : Segment} (h : t.child? s = some c) :
    c ∈ t.children := by
  cases t with
  | array items =>
    simp only [child?, element?, Option.bind_eq_some_iff] at h
    obtain ⟨i, -, hi⟩ := h
    exact List.mem_of_getElem? hi
  | map fields =>
    exact List.mem_map_of_mem (f := Prod.snd) (Entries.mem_of_get? (show _ = some c from h))
  | null | bool | number | text => exact absurd h (by simp [child?])

/-- A node without children has no child to name. -/
lemma child?_of_childless {t : Tree} (ht : t.children = []) (s : Segment) : t.child? s = none := by
  refine Option.eq_none_iff_forall_ne_some.mpr fun c hc => ?_
  have := mem_children_of_child? hc
  rw [ht] at this
  exact absurd this List.not_mem_nil

/-- Every child of a sound node is named by a segment. -/
lemma Sound.exists_child? {t c : Tree} (ht : t.Sound) (h : c ∈ t.children) :
    ∃ s, t.child? s = some c := by
  obtain ⟨m, hm, rfl⟩ := List.mem_map.mp (map_snd_members t ▸ h)
  exact ⟨m.1, (mem_members_iff ht).mp hm⟩

/-- The children of a well-formed tree are well-formed. -/
lemma WellFormed.child {t c : Tree} {s : Segment} (ht : t.WellFormed) (h : t.child? s = some c) :
    c.WellFormed :=
  ((wellFormed_iff t).mp ht).2 c (mem_children_of_child? h)

/-! ### Keys that name no index -/

/-- No map of the tree has a key that names an index. -/
def PlainKeys (t : Tree) : Prop :=
  ∀ u ∈ t.nodes, ∀ f ∈ u.entries, (⟨f.1⟩ : Segment).isIndex = false

instance (t : Tree) : Decidable t.PlainKeys :=
  inferInstanceAs (Decidable (∀ u ∈ t.nodes, ∀ f ∈ u.entries, (⟨f.1⟩ : Segment).isIndex = false))

/-- The keys of a tree are plain if those of its root and of its children are. -/
theorem plainKeys_iff (t : Tree) : t.PlainKeys ↔
    (∀ f ∈ t.entries, (⟨f.1⟩ : Segment).isIndex = false) ∧ ∀ c ∈ t.children, c.PlainKeys := by
  unfold PlainKeys
  rw [nodes_eq t]
  simp only [List.mem_cons, List.mem_flatMap, forall_eq_or_imp, forall_exists_index, and_imp]
  exact and_congr_right fun _ => ⟨fun h c hc u hu => h u c hc hu, fun h u c hc hu => h c hc u hu⟩

/-- The children of a tree with plain keys have plain keys. -/
lemma PlainKeys.child {t c : Tree} {s : Segment} (ht : t.PlainKeys) (h : t.child? s = some c) :
    c.PlainKeys :=
  ((plainKeys_iff t).mp ht).2 c (mem_children_of_child? h)

/-- A segment that names a field is a key of the map. -/
lemma PlainKeys.isIndex_eq_false {fields : List (String × Tree)} {c : Tree} {s : Segment}
    (ht : (Tree.map fields).PlainKeys) (h : (Tree.map fields).child? s = some c) :
    s.isIndex = false :=
  ((plainKeys_iff _).mp ht).1 (s.key, c) (Entries.mem_of_get? (show _ = some c from h))

/-! ### Nodes at locations -/

@[simp] lemma at?_nil (t : Tree) : t.at? [] = some t := rfl

lemma at?_cons (t : Tree) (s : Segment) (rest : List Segment) :
    t.at? (s :: rest) = (t.child? s).bind (·.at? rest) := rfl

lemma at?_singleton (t : Tree) (s : Segment) : t.at? [s] = t.child? s := by
  rw [at?_cons]
  cases t.child? s <;> rfl

/-- A location leads through a child. -/
lemma at?_cons_eq_some_iff {t u : Tree} {s : Segment} {rest : List Segment} :
    t.at? (s :: rest) = some u ↔ ∃ c, t.child? s = some c ∧ c.at? rest = some u := by
  rw [at?_cons, Option.bind_eq_some_iff]

/-- Following two lists of segments one after the other. -/
theorem at?_append (t : Tree) (p q : List Segment) :
    t.at? (p ++ q) = (t.at? p).bind (·.at? q) := by
  induction p generalizing t with
  | nil => rfl
  | cons s rest ih =>
    rw [List.cons_append, at?_cons, at?_cons]
    cases t.child? s with
    | none => rfl
    | some c => exact ih c

/-- What stands at a location is a child of the node before. -/
lemma at?_concat (t : Tree) (w : List Segment) (s : Segment) :
    t.at? (w ++ [s]) = (t.at? w).bind (·.child? s) := by
  rw [at?_append]
  exact congrArg _ (funext fun c => at?_singleton c s)

/-- There are nodes all the way down to a node. -/
lemma exists_at?_of_isPrefix {t u : Tree} {w q : List Segment} (hpre : w <+: q)
    (hu : t.at? q = some u) : ∃ c, t.at? w = some c := by
  obtain ⟨r, rfl⟩ := hpre
  rw [at?_append] at hu
  obtain ⟨c, hc, -⟩ := Option.bind_eq_some_iff.mp hu
  exact ⟨c, hc⟩

/-- All nodes of a well-formed tree are well-formed. -/
lemma WellFormed.at {t u : Tree} {p : List Segment} (ht : t.WellFormed) (h : t.at? p = some u) :
    u.WellFormed := by
  induction p generalizing t with
  | nil => exact Option.some.inj h ▸ ht
  | cons s rest ih =>
    obtain ⟨c, hc, hrest⟩ := at?_cons_eq_some_iff.mp h
    exact ih (ht.child hc) hrest

end Tree

end DocumentPath
