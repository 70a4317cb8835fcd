import Mathlib
import DocumentPath.Proofs.Pruning
import DocumentPath.Proofs.Visits

/-!
# Uniform pruning

Pruning moves the elements of an array up when it drops elements before them, so what stands at a
location afterwards need not be what stood there before.  `Tree.Uniform keep` excludes this: below a
node that is dropped nothing is kept, and an array keeps all of its elements or none.  A tree pruned in
this way has the members of the tree that are kept (`members_prune`), the nodes of the tree at the
locations that are kept (`at?_prune`), and a selector visits exactly those of its locations that are
kept (`Stage.visits_prune`).  `prune_prune` prunes twice in one go.

The special cases at the end are prunings of a part of the tree: below each child, below one location,
and of a single child.
-/

namespace DocumentPath

namespace Tree

variable {keep keep' : List Segment → Bool}

/-! ### Pruning in general -/

/-- The fields of a map that are kept, pruned. -/
lemma pruneFields_eq (keep : List Segment → Bool) (fields : List (String × Tree)) :
    pruneFields keep fields = (fields.filter fun f => keep [⟨f.1⟩]).map
      fun f => (f.1, prune (fun q => keep (⟨f.1⟩ :: q)) f.2) := by
  induction fields with
  | nil => rfl
  | cons f rest ih =>
    obtain ⟨k, t⟩ := f
    rw [pruneFields, List.filter_cons, ih]
    cases keep [⟨k⟩] <;> rfl

/-- The children of a pruned node are children of the node, pruned. -/
lemma exists_child_of_mem_prune {t c : Tree} (h : c ∈ (t.prune keep).children) :
    ∃ c' ∈ t.children, ∃ keep', c = c'.prune keep' := by
  cases t with
  | array items =>
    rw [prune, children, pruneItems_eq, List.mem_map] at h
    obtain ⟨m, hm, rfl⟩ := h
    exact ⟨m.1, List.fst_mem_of_mem_zipIdx (List.mem_filter.mp hm).1, _, rfl⟩
  | map fields =>
    rw [prune, children, pruneFields_eq, List.map_map, List.mem_map] at h
    obtain ⟨f, hf, rfl⟩ := h
    exact ⟨f.2, List.mem_map_of_mem (f := Prod.snd) (List.mem_filter.mp hf).1, _, rfl⟩
  | null | bool | number | text => exact absurd h List.not_mem_nil

/-- Pruning keeps the kind of the root. -/
@[simp] lemma kind_prune (keep : List Segment → Bool) (t : Tree) : (t.prune keep).kind = t.kind := by
  cases t <;> rfl

/-- Pruning keeps a node sound. -/
lemma sound_prune {t : Tree} (ht : t.Sound) : (t.prune keep).Sound := by
  cases t with
  | array items =>
    have hlen : (pruneItems keep 0 items).length ≤ items.length := by
      rw [pruneItems_eq, List.length_map]
      exact (List.length_filter_le _ _).trans_eq List.length_zipIdx
    exact hlen.trans ht
  | map fields =>
    have hdistinct : Entries.Distinct fields := ht
    exact hdistinct.sublist (map_fst_pruneFields_sublist keep fields)
  | null | bool | number | text => exact trivial

/-- A pruned tree is well-formed. -/
theorem wellFormed_prune {t : Tree} (ht : t.WellFormed) : (t.prune keep).WellFormed := by
  induction t using byChildren generalizing keep with
  | step t ih =>
    rw [wellFormed_iff] at ht ⊢
    refine ⟨sound_prune ht.1, fun c hc => ?_⟩
    obtain ⟨c', hc', keep', rfl⟩ := exists_child_of_mem_prune hc
    exact ih c' hc' (ht.2 c' hc')

/-- Only what is said of existing locations counts. -/
theorem prune_congr {t : Tree} (ht : t.WellFormed)
    (h : ∀ q u, t.at? q = some u → keep q = keep' q) : t.prune keep = t.prune keep' := by
  induction t using byChildren generalizing keep keep' with
  | step t ih =>
    have hmember : ∀ m ∈ t.members, keep [m.1] = keep' [m.1]
        ∧ m.2.prune (fun q => keep (m.1 :: q)) = m.2.prune fun q => keep' (m.1 :: q) := by
      intro m hm
      have hchild : t.child? m.1 = some m.2 := (mem_members_iff ht.sound).mp hm
      have hbelow : ∀ q u, m.2.at? q = some u → keep (m.1 :: q) = keep' (m.1 :: q) :=
        fun q u hu => h _ u (at?_cons_eq_some_iff.mpr ⟨m.2, hchild, hu⟩)
      exact ⟨hbelow [] m.2 rfl, ih m.2 (mem_children_of_mem_members hm) (ht.child hchild) hbelow⟩
    cases t with
    | array items =>
      have hitem : ∀ m ∈ items.zipIdx, keep [.ofIndex m.2] = keep' [.ofIndex m.2]
          ∧ m.1.prune (fun q => keep (.ofIndex m.2 :: q))
            = m.1.prune fun q => keep' (.ofIndex m.2 :: q) :=
        fun m hm => hmember (.ofIndex m.2, m.1) (List.mem_map_of_mem hm)
      rw [prune, prune, pruneItems_eq, pruneItems_eq,
        List.filter_congr fun m hm => (hitem m hm).1]
      exact congrArg array (List.map_congr_left fun m hm => (hitem m (List.mem_filter.mp hm).1).2)
    | map fields =>
      have hfield : ∀ f ∈ fields, keep [⟨f.1⟩] = keep' [⟨f.1⟩]
          ∧ f.2.prune (fun q => keep (⟨f.1⟩ :: q)) = f.2.prune fun q => keep' (⟨f.1⟩ :: q) :=
        fun f hf => hmember (⟨f.1⟩, f.2) (List.mem_map_of_mem hf)
      rw [prune, prune, pruneFields_eq, pruneFields_eq,
        List.filter_congr fun f hf => (hfield f hf).1]
      refine congrArg map (List.map_congr_left fun f hf => ?_)
      rw [(hfield f (List.mem_filter.mp hf).1).2]
    | null | bool | number | text => rfl

/-- Where every existing location is kept, pruning changes nothing. -/
lemma prune_eq_self_of_at? {t : Tree} (ht : t.WellFormed)
    (h : ∀ q u, t.at? q = some u → keep q = true) : t.prune keep = t := by
  have hall : t.prune keep = t.prune fun _ => true := prune_congr ht h
  rw [hall]
  exact prune_eq_self (fun _ => rfl) t

/-! ### Heights -/

/-- The height of items is bounded if each of them is lower. -/
lemma heightItems_le_iff {items : List Tree} {n : ℕ} :
    heightItems items ≤ n ↔ ∀ t ∈ items, t.height < n := by
  induction items with
  | nil => simp [heightItems]
  | cons t rest ih => rw [heightItems, Nat.max_le, ih, List.forall_mem_cons, Nat.succ_le_iff]

/-- The height of fields is bounded if each of their values is lower. -/
lemma heightFields_le_iff {fields : List (String × Tree)} {n : ℕ} :
    heightFields fields ≤ n ↔ ∀ t ∈ fields.map Prod.snd, t.height < n := by
  induction fields with
  | nil => simp [heightFields]
  | cons f rest ih =>
    obtain ⟨k, t⟩ := f
    rw [heightFields, Nat.max_le, ih, List.map_cons, List.forall_mem_cons, Nat.succ_le_iff]

/-- The height of a node is above those of its children, and the least number that is. -/
theorem height_le_iff {t : Tree} {n : ℕ} : t.height ≤ n ↔ ∀ c ∈ t.children, c.height < n := by
  cases t with
  | array items => exact heightItems_le_iff
  | map fields => exact heightFields_le_iff
  | null | bool | number | text => simp [height, children]

/-- A pruned tree is no higher than the tree. -/
theorem height_prune_le (keep : List Segment → Bool) (t : Tree) :
    (t.prune keep).height ≤ t.height := by
  induction t using byChildren generalizing keep with
  | step t ih =>
    rw [height_le_iff]
    intro c hc
    obtain ⟨c', hc', keep', rfl⟩ := exists_child_of_mem_prune hc
    exact (ih c' hc' keep').trans_lt (height_le_iff.mp le_rfl c' hc')

/-! ### Uniform pruning -/

/-- Nothing is kept below what is dropped, and all elements of an array are kept or none. -/
structure Uniform (keep : List Segment → Bool) : Prop where
  above : ∀ w q, keep (w ++ q) = true → keep w = true
  elements : ∀ w s s', s.isIndex = true → s'.isIndex = true → keep (w ++ [s]) = keep (w ++ [s'])

/-- What is uniform is so below a location. -/
lemma Uniform.below (h : Uniform keep) (p : List Segment) : Uniform fun q => keep (p ++ q) where
  above w q hq := h.above (p ++ w) q (by rwa [List.append_assoc])
  elements w s s' hs hs' := by
    rw [← List.append_assoc, ← List.append_assoc]
    exact h.elements (p ++ w) s s' hs hs'

/-- Two uniform conditions are uniform together. -/
lemma Uniform.and (h : Uniform keep) (h' : Uniform keep') : Uniform fun q => keep q && keep' q where
  above w q hq := by
    rw [Bool.and_eq_true] at hq ⊢
    exact ⟨h.above w q hq.1, h'.above w q hq.2⟩
  elements w s s' hs hs' := by rw [h.elements w s s' hs hs', h'.elements w s s' hs hs']

/-- The segment of an index in the range is an index. -/
lemma isIndex_ofIndex {i : ℕ} (hi : i < Segment.indexBound) : (Segment.ofIndex i).isIndex = true := by
  rw [Segment.isIndex, Segment.index?_ofIndex hi]
  rfl

/-- The members of a pruned node are those members of the node that are kept, pruned. -/
theorem members_prune
    (h : ∀ s s' : Segment, s.isIndex = true → s'.isIndex = true → keep [s] = keep [s'])
    {t : Tree} (ht : t.Sound) : (t.prune keep).members
    = (t.members.filter fun m => keep [m.1]).map
      fun m => (m.1, m.2.prune fun q => keep (m.1 :: q)) := by
  cases t with
  | array items =>
    have hbound : items.length ≤ Segment.indexBound := ht
    -- all elements are kept, or none
    have hall : ∀ m ∈ items.zipIdx, keep [.ofIndex m.2] = keep [.ofIndex 0] := by
      intro m hm
      have hi : m.2 < items.length := by
        have := List.snd_lt_of_mem_zipIdx hm
        omega
      exact h _ _ (isIndex_ofIndex (by omega)) (isIndex_ofIndex (by omega))
    have hfilter : (items.zipIdx.filter fun m => keep [.ofIndex m.2])
        = items.zipIdx.filter fun _ => keep [.ofIndex 0] :=
      List.filter_congr hall
    have hfilter' : ((members (.array items)).filter fun m => keep [m.1])
        = (members (.array items)).filter fun _ => keep [.ofIndex 0] := by
      refine List.filter_congr fun m hm => ?_
      obtain ⟨m', hm', rfl⟩ := List.mem_map.mp hm
      exact hall m' hm'
    rw [hfilter', prune, pruneItems_eq, hfilter]
    cases keep [.ofIndex 0] with
    | false => simp [members]
    | true =>
      rw [List.filter_true, List.filter_true]
      refine List.ext_getElem (by simp [members]) fun i _ _ => ?_
      simp [members]
  | map fields =>
    rw [prune, pruneFields_eq, members, members, List.map_map, List.filter_map, List.map_map]
    rfl
  | null | bool | number | text => rfl

/-- A child of a pruned node is the child of the node, pruned, if it is kept. -/
theorem child?_prune (h : Uniform keep) {t : Tree} (ht : t.Sound) (s : Segment) :
    (t.prune keep).child? s
      = if keep [s] then (t.child? s).map (prune fun q => keep (s :: q)) else none := by
  refine Option.ext fun c => ?_
  rw [← mem_members_iff (sound_prune ht), members_prune (h.elements []) ht, List.mem_map]
  constructor
  · rintro ⟨m, hm, heq⟩
    obtain ⟨rfl, rfl⟩ := Prod.mk.inj heq
    rw [List.mem_filter, mem_members_iff ht] at hm
    rw [if_pos hm.2, hm.1, Option.map_some]
  · intro hc
    split at hc
    · next hkeep =>
      obtain ⟨c', hc', rfl⟩ := Option.map_eq_some_iff.mp hc
      exact ⟨(s, c'), List.mem_filter.mpr ⟨(mem_members_iff ht).mpr hc', hkeep⟩, rfl⟩
    · exact absurd hc (by simp)

/-- The node at a location of a pruned tree is the node of the tree, pruned, if it is kept. -/
theorem at?_prune (h : Uniform keep) (hroot : keep [] = true) {t : Tree} (ht : t.WellFormed)
    (q : List Segment) : (t.prune keep).at? q
      = if keep q then (t.at? q).map (prune fun r => keep (q ++ r)) else none := by
  induction q generalizing t keep with
  | nil => simp [hroot]
  | cons s q ih =>
    rw [at?_cons, child?_prune h ht.sound]
    cases hs : keep [s] with
    | false =>
      have hq : keep (s :: q) ≠ true := fun hq =>
        absurd (hs.symm.trans (h.above [s] q hq)) (by simp)
      rw [if_neg (by simp), if_neg hq, Option.bind_none]
    | true =>
      rw [if_pos rfl, at?_cons]
      cases hc : t.child? s with
      | none => simp
      | some c => exact ih (h.below [s]) hs (ht.child hc)

/-- Two nodes of one kind are equal if they have the same members, unless they are values. -/
lemma eq_of_members {t u : Tree} (hkind : t.kind = u.kind) (hcontainer : t.isContainer = true)
    (hmembers : t.members = u.members) : t = u := by
  have hchildren : t.children = u.children := by
    rw [← map_snd_members, ← map_snd_members, hmembers]
  cases t with
  | array items =>
    cases u with
    | array items' => exact congrArg array hchildren
    | map | null | bool | number | text => exact absurd hkind (by simp [kind])
  | map fields =>
    cases u with
    | map fields' =>
      have hinj : Function.Injective fun f : String × Tree => ((⟨f.1⟩ : Segment), f.2) := by
        rintro ⟨k, c⟩ ⟨k', c'⟩ heq
        simpa using heq
      exact congrArg map (List.map_injective_iff.mpr hinj hmembers)
    | array | null | bool | number | text => exact absurd hkind (by simp [kind])
  | null | bool | number | text =>
    exact absurd hcontainer (by simp [isContainer, kind, Kind.isContainer])

/-- Pruning twice drops what either drops. -/
theorem prune_prune (h : Uniform keep) (h' : Uniform keep') {t : Tree} (ht : t.WellFormed) :
    (t.prune keep).prune keep' = t.prune fun q => keep q && keep' q := by
  induction t using byChildren generalizing keep keep' with
  | step t ih =>
    cases hcontainer : t.isContainer with
    | false =>
      cases t with
      | array | map => exact absurd hcontainer (by simp [isContainer, kind, Kind.isContainer])
      | null | bool | number | text => rfl
    | true =>
      refine eq_of_members (by simp) (by simpa [isContainer] using hcontainer) ?_
      rw [members_prune (h'.elements []) (sound_prune ht.sound), members_prune (h.elements []) ht.sound,
        members_prune ((h.and h').elements []) ht.sound, List.filter_map, List.map_map, List.filter_filter]
      have hfilter : (t.members.filter fun m => (((fun m => keep' [m.1]) ∘ fun m : Segment × Tree =>
            (m.1, m.2.prune fun q => keep (m.1 :: q))) m && keep [m.1]))
          = t.members.filter fun m => keep [m.1] && keep' [m.1] :=
        List.filter_congr fun m _ => Bool.and_comm _ _
      rw [hfilter]
      refine List.map_congr_left fun m hm => ?_
      have hm' : m ∈ t.members := (List.mem_filter.mp hm).1
      have hchild : t.child? m.1 = some m.2 := (mem_members_iff ht.sound).mp hm'
      exact congrArg (m.1, ·) (ih m.2 (mem_children_of_mem_members hm') (h.below [m.1])
        (h'.below [m.1]) (ht.child hchild))

/-! ### Walks and visits -/

/-- Only what is kept contributes, if nothing is listed for what is dropped. -/
lemma flatMap_filter_eq {α β : Type} {l : List α} {p : α → Bool} {f g : α → List β}
    (hkept : ∀ a ∈ l, p a = true → f a = g a) (hdropped : ∀ a ∈ l, p a = false → g a = []) :
    (l.filter p).flatMap f = l.flatMap g := by
  induction l with
  | nil => rfl
  | cons a l ih =>
    have hrest := ih (fun b hb => hkept b (List.mem_cons_of_mem _ hb))
      fun b hb => hdropped b (List.mem_cons_of_mem _ hb)
    rw [List.filter_cons, List.flatMap_cons, ← hrest]
    cases hp : p a with
    | false => rw [if_neg (by simp), hdropped a List.mem_cons_self hp, List.nil_append]
    | true => rw [if_pos rfl, List.flatMap_cons, hkept a List.mem_cons_self hp]

/-- What is listed below the kept members of a node is what is kept of what is listed below all. -/
lemma flatMap_members_prune (h : Uniform keep) {t : Tree} (ht : t.Sound)
    {f : Tree → List (List Segment)} (hf : ∀ m ∈ t.members, keep [m.1] = true →
      f (m.2.prune fun q => keep (m.1 :: q)) = (f m.2).filter fun q => keep (m.1 :: q)) :
    ((t.prune keep).members.flatMap fun m => (f m.2).map (m.1 :: ·))
      = (t.members.flatMap fun m => (f m.2).map (m.1 :: ·)).filter keep := by
  rw [members_prune (h.elements []) ht, List.flatMap_map, List.filter_flatMap]
  refine flatMap_filter_eq (fun m hm hkeep => ?_) fun m _ hdropped => ?_
  · rw [hf m hm hkeep, List.filter_map]
    rfl
  · rw [List.filter_eq_nil_iff]
    intro q hq hq'
    obtain ⟨q, -, rfl⟩ := List.mem_map.mp hq
    exact absurd (hdropped.symm.trans (h.above [m.1] q hq')) (by simp)

/-- A walk through a pruned tree goes to the kept locations. -/
lemma walk_prune (h : Uniform keep) (hroot : keep [] = true) {t : Tree} (ht : t.WellFormed) :
    (t.prune keep).walk = t.walk.filter keep := by
  induction t using byChildren generalizing keep with
  | step t ih =>
    rw [walk_eq, walk_eq, List.filter_cons_of_pos hroot]
    refine congrArg _ (flatMap_members_prune h ht.sound fun m hm hkeep => ?_)
    have hchild : t.child? m.1 = some m.2 := (mem_members_iff ht.sound).mp hm
    exact ih m.2 (mem_children_of_mem_members hm) (h.below [m.1]) hkeep (ht.child hchild)

/-! ### Pruning a part of a tree -/

/-- A node with each child replaced by its image. -/
def mapChildren (f : Tree → Tree) : Tree → Tree
  | .array items => .array (items.map f)
  | .map fields => .map (fields.map fun e => (e.1, f e.2))
  | t => t

/-- Mapping no children changes nothing. -/
lemma mapChildren_of_childless {t : Tree} (ht : t.children = []) (f : Tree → Tree) :
    t.mapChildren f = t := by
  cases t with
  | array items =>
    rw [show items = [] from ht]
    rfl
  | map fields =>
    rw [show fields = [] from List.map_eq_nil_iff.mp ht]
    rfl
  | null | bool | number | text => rfl

/-- Below all children the same is kept. -/
lemma prune_eq_mapChildren (hroot : keep' [] = true) (h : ∀ s q, keep (s :: q) = keep' q)
    (t : Tree) : t.prune keep = t.mapChildren (prune keep') := by
  have hbelow : ∀ s : Segment, (fun q => keep (s :: q)) = keep' := fun s => funext (h s)
  have htop : ∀ s : Segment, keep [s] = true := fun s => (h s []).trans hroot
  cases t with
  | array items =>
    rw [prune, pruneItems_eq, List.filter_eq_self.mpr fun m _ => htop _]
    simp only [hbelow]
    rw [mapChildren, ← List.zipIdx_map_fst 0 items, List.map_map, List.zipIdx_map_fst]
    rfl
  | map fields =>
    rw [prune, pruneFields_eq, List.filter_eq_self.mpr fun f _ => htop _]
    simp only [hbelow]
    rfl
  | null | bool | number | text => rfl

/-- The members of a node with one child replaced. -/
lemma members_putChild {t : Tree} (ht : t.Sound) (s : Segment) (v : Tree) :
    (t.putChild s v).members = t.members.map fun m => (m.1, if m.1 = s then v else m.2) := by
  cases t with
  | array items =>
    have hbound : items.length ≤ Segment.indexBound := ht
    rw [putChild]
    cases hs : s.index? with
    | none =>
      conv_lhs => rw [← List.map_id (members (.array items))]
      refine List.map_congr_left fun m hm => ?_
      obtain ⟨m', hm', rfl⟩ := List.mem_map.mp hm
      have hi := List.snd_lt_of_mem_zipIdx hm'
      have hne : Segment.ofIndex m'.2 ≠ s := by
        rintro rfl
        rw [Segment.index?_ofIndex (by omega)] at hs
        exact absurd hs (by simp)
      simp [hne]
    | some i =>
      rw [Segment.eq_ofIndex_of_index? hs]
      refine List.ext_getElem (by simp [members]) fun j _ _ => ?_
      simp only [members, List.getElem_map, List.getElem_zipIdx, List.getElem_set, Nat.zero_add,
        Segment.ofIndex_inj, eq_comm]
  | map fields =>
    have hdistinct : Entries.Distinct fields := ht
    rw [putChild, members, members, List.map_map]
    clear ht
    induction fields with
    | nil => rfl
    | cons f rest ih =>
      obtain ⟨k, c⟩ := f
      obtain ⟨hk, hrest⟩ : k ∉ rest.map Prod.fst ∧ Entries.Distinct rest := List.nodup_cons.mp hdistinct
      rw [Entries.replace]
      by_cases hks : k = s.key
      · have hother : ∀ f ∈ rest, (⟨f.1⟩ : Segment) ≠ s := by
          rintro f hf rfl
          exact hk (hks ▸ List.mem_map_of_mem (f := Prod.fst) hf)
        rw [if_pos hks, List.map_cons, List.map_cons]
        refine congr_arg₂ _ (by simp [hks]) (List.map_congr_left fun f hf => ?_)
        simp [hother f hf]
      · have hne : (⟨k⟩ : Segment) ≠ s := fun h => hks (congrArg Segment.key h)
        rw [if_neg hks, List.map_cons, List.map_cons, ih hrest]
        simp [hne]
  | null | bool | number | text => rfl

/-- Putting a child back keeps the kind of a node. -/
lemma kind_putChild (t : Tree) (s : Segment) (v : Tree) : (t.putChild s v).kind = t.kind := by
  cases t with
  | array items => rw [putChild]; cases s.index? <;> rfl
  | map | null | bool | number | text => rfl

/-- Something is dropped below one child only. -/
lemma prune_eq_putChild {t c : Tree} {s : Segment} (ht : t.Sound) (hc : t.child? s = some c)
    (hroot : keep [s] = true) (hother : ∀ s' q, s' ≠ s → keep (s' :: q) = true) :
    t.prune keep = t.putChild s (c.prune fun q => keep (s :: q)) := by
  have htop : ∀ s' : Segment, keep [s'] = true := fun s' =>
    (eq_or_ne s' s).elim (fun h => h ▸ hroot) (hother s' [])
  cases hcontainer : t.isContainer with
  | false =>
    cases t with
    | array | map => exact absurd hcontainer (by simp [isContainer, kind, Kind.isContainer])
    | null | bool | number | text => rfl
  | true =>
    refine eq_of_members (by simp [kind_putChild]) (by simpa [isContainer] using hcontainer) ?_
    rw [members_prune (fun s s' _ _ => (htop s).trans (htop s').symm) ht, members_putChild ht,
      List.filter_eq_self.mpr fun m _ => htop m.1]
    refine List.map_congr_left fun m hm => ?_
    by_cases hs : m.1 = s
    · have hm' : m.2 = c := by
        rw [mem_members_iff ht, hs, hc] at hm
        exact (Option.some.inj hm).symm
      rw [if_pos hs, hs, hm']
    · rw [if_neg hs, prune_eq_self fun q => hother m.1 q hs]

/-- Something is dropped below one location only. -/
theorem prune_eq_putAt {t c : Tree} {p : List Segment} (ht : t.WellFormed) (hc : t.at? p = some c)
    (hroot : keep p = true) (hother : ∀ q, ¬ p <+: q → keep q = true) :
    t.prune keep = t.putAt p (c.prune fun q => keep (p ++ q)) := by
  induction p generalizing t keep with
  | nil =>
    rw [putAt, Option.some.inj hc]
    rfl
  | cons s p ih =>
    obtain ⟨c', hc', hc⟩ := at?_cons_eq_some_iff.mp hc
    have htop : keep [s] = true := by
      cases p with
      | nil => exact hroot
      | cons s' p => exact hother [s] fun h => by simpa using h.length_le
    have hside : ∀ s' q, s' ≠ s → keep (s' :: q) = true := fun s' q hne =>
      hother (s' :: q) fun h => hne (List.cons_prefix_cons.mp h).1.symm
    rw [prune_eq_putChild ht.sound hc' htop hside, putAt, hc',
      ih (ht.child hc') hc hroot fun q hq =>
        hother (s :: q) fun h => hq (List.cons_prefix_cons.mp h).2]
    rfl

/-- Something would be dropped only below a location that does not exist. -/
lemma prune_eq_self_of_none {t : Tree} {p : List Segment} (ht : t.WellFormed) (hc : t.at? p = none)
    (hother : ∀ q, ¬ p <+: q → keep q = true) : t.prune keep = t := by
  refine prune_eq_self_of_at? ht fun q u hu => hother q ?_
  rintro ⟨r, rfl⟩
  rw [at?_append, hc] at hu
  exact absurd hu (by simp)

/-- A field is dropped from a map. -/
lemma prune_eq_erase {fields : List (String × Tree)} {k : Segment}
    (hdistinct : Entries.Distinct fields) (hkey : keep [k] = false)
    (hother : ∀ s q, s ≠ k → keep (s :: q) = true) :
    (Tree.map fields).prune keep = .map (Entries.erase fields k.key) := by
  refine congrArg map ?_
  induction fields with
  | nil => rfl
  | cons f rest ih =>
    obtain ⟨k', c⟩ := f
    obtain ⟨hk', hrest⟩ : k' ∉ rest.map Prod.fst ∧ Entries.Distinct rest :=
      List.nodup_cons.mp hdistinct
    rw [pruneFields, Entries.erase]
    by_cases hks : k' = k.key
    · have hsame : ∀ f ∈ rest, (⟨f.1⟩ : Segment) ≠ k := by
        rintro f hf rfl
        exact hk' (hks ▸ List.mem_map_of_mem (f := Prod.fst) hf)
      have hk : (⟨k'⟩ : Segment) = k := congrArg Segment.mk hks
      rw [if_pos hks, hk, hkey, if_neg (by simp), pruneFields_eq,
        List.filter_eq_self.mpr fun f hf => hother _ [] (hsame f hf)]
      conv_rhs => rw [← List.map_id rest]
      refine List.map_congr_left fun f hf => ?_
      rw [prune_eq_self fun q => hother _ q (hsame f hf)]
      rfl
    · have hne : (⟨k'⟩ : Segment) ≠ k := fun h => hks (congrArg Segment.key h)
      rw [if_neg hks, if_pos (hother _ [] hne), prune_eq_self fun q => hother _ q hne, ih hrest]

end Tree

namespace Stage

/-- In a pruned tree a selector visits those of its locations that are kept. -/
theorem visits_prune {keep : List Segment → Bool} (h : Tree.Uniform keep) (hroot : keep [] = true)
    (stages : List Stage) {t : Tree} (ht : t.WellFormed) :
    visits stages (t.prune keep) = (visits stages t).filter keep := by
  induction stages generalizing t keep with
  | nil => rfl
  | cons stage rest ih =>
    have hbelow : ∀ w : List Segment, ((((t.prune keep).at? w).elim [] fun c =>
          (visits rest c).map (w ++ ·)))
        = ((t.at? w).elim [] fun c => (visits rest c).map (w ++ ·)).filter keep := by
      intro w
      rw [Tree.at?_prune h hroot ht]
      cases hw : keep w with
      | false =>
        rw [if_neg (by simp), Option.elim_none, eq_comm, List.filter_eq_nil_iff]
        intro q hq hq'
        cases hc : t.at? w with
        | none =>
          rw [hc] at hq
          exact absurd hq List.not_mem_nil
        | some c =>
          rw [hc] at hq
          obtain ⟨q, -, rfl⟩ := List.mem_map.mp hq
          exact absurd (hw.symm.trans (h.above w q hq')) (by simp)
      | true =>
        rw [if_pos rfl]
        cases hc : t.at? w with
        | none => rfl
        | some c =>
          rw [Option.map_some, Option.elim_some, Option.elim_some, List.filter_map,
            ih (h.below w) (by simpa using hw) (ht.at hc)]
          rfl
    cases stage with
    | terminal => simp [visits, hroot]
    | literal p => exact hbelow p.segments
    | wildcard =>
      rw [visits_wildcard, visits_wildcard]
      refine Tree.flatMap_members_prune h ht.sound fun m hm hkeep => ?_
      exact ih (h.below [m.1]) hkeep (ht.child ((Tree.mem_members_iff ht.sound).mp hm))
    | descent =>
      rw [visits, visits, Tree.walk_prune h hroot ht, List.filter_flatMap]
      refine Tree.flatMap_filter_eq (fun w _ _ => hbelow w) fun w _ hw => ?_
      rw [← hbelow, Tree.at?_prune h hroot ht, if_neg (by simp [hw]), Option.elim_none]

end Stage

end DocumentPath
