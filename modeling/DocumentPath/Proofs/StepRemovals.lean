import Mathlib
import DocumentPath.Proofs.OutermostRemovals
import DocumentPath.Proofs.Writes

/-!
# Removals step by step

Stages bundle neighbouring keys.  Here a path is followed one segment at a time: removing through a key
that comes first goes on below the child that the key names (`Removal.returns_stagesOf_key`).  A removal
changes a node by putting a changed child in the place of a child, by changing all children, or by
taking a child; `Tree.child?_putChild`, `Tree.child?_mapChildren` and `Tree.takeChild?_cases` read the
children of the changed node.
-/

namespace DocumentPath

open Selector (stagesOf)

namespace Tree

/-! ### Children of changed nodes -/

/-- Putting a child back keeps a node sound. -/
lemma sound_putChild {t : Tree} (ht : t.Sound) (s : Segment) (v : Tree) : (t.putChild s v).Sound := by
  cases t with
  | array items =>
    have hbound : items.length ≤ Segment.indexBound := ht
    rw [putChild]
    cases s.index? with
    | none => exact hbound
    | some i => exact (List.length_set).trans_le hbound
  | map fields =>
    have hkeys : (Entries.replace fields s.key v).map Prod.fst = fields.map Prod.fst := by
      clear ht
      induction fields with
      | nil => rfl
      | cons f rest ih =>
        obtain ⟨k, c⟩ := f
        rw [Entries.replace]
        split
        · rfl
        · rw [List.map_cons, ih, List.map_cons]
    have hdistinct : (fields.map Prod.fst).Nodup := ht
    exact (hkeys ▸ hdistinct : ((Entries.replace fields s.key v).map Prod.fst).Nodup)
  | null | bool | number | text => exact trivial

/-- With a child replaced, that segment names the new child and the others name what they named. -/
theorem child?_putChild {t : Tree} (ht : t.Sound) (s : Segment) (v : Tree) (s' : Segment) :
    (t.putChild s v).child? s' = (t.child? s').map fun c => if s' = s then v else c := by
  refine Option.ext fun c => ?_
  rw [← mem_members_iff (sound_putChild ht s v), members_putChild ht, List.mem_map,
    Option.map_eq_some_iff]
  constructor
  · rintro ⟨m, hm, heq⟩
    obtain ⟨rfl, rfl⟩ := Prod.mk.inj heq
    exact ⟨m.2, (mem_members_iff ht).mp hm, rfl⟩
  · rintro ⟨c', hc', rfl⟩
    exact ⟨(s', c'), (mem_members_iff ht).mpr hc', rfl⟩

/-- Putting a well-formed child back keeps a tree well-formed. -/
lemma wellFormed_putChild {t v : Tree} (ht : t.WellFormed) (hv : v.WellFormed) (s : Segment) :
    (t.putChild s v).WellFormed := by
  rw [wellFormed_iff]
  refine ⟨sound_putChild ht.sound s v, fun c hc => ?_⟩
  rw [← map_snd_members, members_putChild ht.sound, List.map_map, List.mem_map] at hc
  obtain ⟨m, hm, rfl⟩ := hc
  rw [Function.comp_apply]
  split
  · exact hv
  · exact ht.child ((mem_members_iff ht.sound).mp hm)

/-- Mapping the children leaves them at their segments. -/
lemma members_mapChildren (f : Tree → Tree) (t : Tree) :
    (t.mapChildren f).members = t.members.map fun m => (m.1, f m.2) := by
  cases t with
  | array items =>
    rw [mapChildren, members, members, List.zipIdx_map, List.map_map, List.map_map]
    rfl
  | map fields =>
    rw [mapChildren, members, members, List.map_map, List.map_map]
    rfl
  | null | bool | number | text => rfl

/-- The children are then the images. -/
lemma children_mapChildren (f : Tree → Tree) (t : Tree) :
    (t.mapChildren f).children = t.children.map f := by
  rw [← map_snd_members, members_mapChildren, List.map_map, ← map_snd_members t, List.map_map]
  rfl

/-- Mapping the children keeps a node sound. -/
lemma sound_mapChildren {t : Tree} (ht : t.Sound) (f : Tree → Tree) : (t.mapChildren f).Sound := by
  cases t with
  | array items => exact (List.length_map f).trans_le ht
  | map fields =>
    have hkeys : (fields.map fun e => (e.1, f e.2)).map Prod.fst = fields.map Prod.fst := by
      rw [List.map_map]
      rfl
    have hdistinct : (fields.map Prod.fst).Nodup := ht
    exact (hkeys ▸ hdistinct : ((fields.map fun e => (e.1, f e.2)).map Prod.fst).Nodup)
  | null | bool | number | text => exact trivial

/-- With all children changed, a segment names the changed child. -/
theorem child?_mapChildren (f : Tree → Tree) (t : Tree) (s : Segment) :
    (t.mapChildren f).child? s = (t.child? s).map f := by
  cases t with
  | array items =>
    rw [mapChildren, child?, child?]
    cases s.index? with
    | none => rfl
    | some i => exact List.getElem?_map
  | map fields =>
    change Entries.get? (fields.map fun e => (e.1, f e.2)) s.key = (Entries.get? fields s.key).map f
    induction fields with
    | nil => rfl
    | cons e rest ih =>
      rw [List.map_cons, Entries.get?, Entries.get?, ih]
      split <;> rfl
  | null | bool | number | text => rfl

/-- Mapping the children to well-formed images keeps a tree well-formed. -/
lemma wellFormed_mapChildren {t : Tree} (ht : t.WellFormed) {f : Tree → Tree}
    (hf : ∀ c ∈ t.children, (f c).WellFormed) : (t.mapChildren f).WellFormed := by
  rw [wellFormed_iff, children_mapChildren]
  refine ⟨sound_mapChildren ht.sound f, fun c hc => ?_⟩
  obtain ⟨c', hc', rfl⟩ := List.mem_map.mp hc
  exact hf c' hc'

/-- Mapping every child to itself changes nothing. -/
@[simp] lemma mapChildren_id (t : Tree) : t.mapChildren (fun c => c) = t := by
  cases t with
  | array items => exact congrArg array (List.map_id items)
  | map fields => exact congrArg map (List.map_id fields)
  | null | bool | number | text => rfl

/-- Taking the child that a segment of index `i` names leaves each other child under its own segment,
or, if it stood behind in an array, under one of an index not below `i`. -/
theorem takeChild?_cases {t t' v : Tree} {s : Segment} {i : ℕ} (ht : t.WellFormed)
    (hs : s.index? = some i) (h : t.takeChild? s = some (v, t')) :
    t.child? s = some v ∧ t'.WellFormed ∧ ∀ s' c, t'.child? s' = some c →
      ∃ s'', t.child? s'' = some c ∧ ((∀ k, s'.index? = some k → k < i) → s'' = s') := by
  cases t with
  | array items =>
    have hbound : items.length ≤ Segment.indexBound := ht.sound
    rw [takeChild?, hs, Option.bind_some, takeElement?, Option.map_eq_some_iff] at h
    obtain ⟨c, hc, heq⟩ := h
    obtain ⟨rfl, rfl⟩ := Prod.mk.inj heq
    refine ⟨by rw [child?, hs, Option.bind_some, element?, hc], ?_, ?_⟩
    · rw [wellFormed_iff] at ht ⊢
      have hle : (items.eraseIdx i).length ≤ items.length := (List.eraseIdx_sublist items i).length_le
      exact ⟨hle.trans hbound, fun c hc => ht.2 c ((List.eraseIdx_sublist items i).subset hc)⟩
    · intro s' c' hc'
      obtain ⟨k, hk, hget⟩ := Option.bind_eq_some_iff.mp hc'
      rw [element?, List.getElem?_eraseIdx] at hget
      by_cases hki : k < i
      · rw [if_pos hki] at hget
        exact ⟨s', by rw [child?, hk, Option.bind_some, element?, hget], fun _ => rfl⟩
      · rw [if_neg hki] at hget
        have hlt : k + 1 < items.length := (List.getElem?_eq_some_iff.mp hget).1
        refine ⟨.ofIndex (k + 1), ?_, fun hlow => absurd (hlow k hk) hki⟩
        rw [child?, Segment.index?_ofIndex (hlt.trans_le hbound), Option.bind_some, element?, hget]
  | map fields =>
    have hdistinct : Entries.Distinct fields := ht.sound
    rw [takeChild?, takeField?, Option.map_eq_some_iff] at h
    obtain ⟨c, hc, heq⟩ := h
    obtain ⟨rfl, rfl⟩ := Prod.mk.inj heq
    refine ⟨hc, ?_, ?_⟩
    · rw [wellFormed_iff] at ht ⊢
      refine ⟨hdistinct.sublist ?_, fun c' hc' => ht.2 c' ?_⟩
      · exact (Entries.erase_sublist fields s.key).map Prod.fst
      · exact ((Entries.erase_sublist fields s.key).map Prod.snd).subset hc'
    · intro s' c' hc'
      refine ⟨s', ?_, fun _ => rfl⟩
      have hmem : (s'.key, c') ∈ Entries.erase fields s.key := Entries.mem_of_get? hc'
      exact (Entries.get?_eq_some_iff hdistinct).mpr
        ((Entries.erase_sublist fields s.key).subset hmem)
  | null | bool | number | text => exact absurd h (by simp [takeChild?])

end Tree

namespace Pointer

/-- Removing below a child. -/
lemma remove_cons {p : Pointer} {s : Segment} {t c : Tree} (hp : p.segments ≠ [])
    (hc : t.child? s = some c) :
    (⟨s :: p.segments⟩ : Pointer).remove t = ((p.remove c).1, t.putChild s (p.remove c).2) := by
  have htail : (⟨s :: p.segments⟩ : Pointer).tail? = p.tail? := List.getLast?_cons_of_ne_nil hp
  have hhead : (⟨s :: p.segments⟩ : Pointer).head.segments = s :: p.head.segments :=
    List.dropLast_cons_of_ne_nil hp
  have hat : (⟨s :: p.segments⟩ : Pointer).head.at? t = p.head.at? c := by
    rw [Pointer.at?, hhead, Tree.at?_cons, hc]
    rfl
  have hself : t.putChild s c = t := Tree.putChild_self hc
  rw [remove, remove, htail, hat, hhead]
  cases p.tail? with
  | none => simp [hself]
  | some k =>
    cases p.head.at? c with
    | none => simp [hself]
    | some parent =>
      cases htake : parent.takeChild? k with
      | none => simp [htake, hself]
      | some r => simp [htake, Tree.putAt_cons hc]

end Pointer

namespace Removal

open Run (Returns)

/-! ### Removing through one segment -/

/-- Removing below a child that a key names. -/
theorem ofStages_stagesOf_key_of_child? {s : Segment} {path : List Step} (hpath : path ≠ [])
    {t c : Tree} (hc : t.child? s = some c) : ofStages (stagesOf (.key s :: path)) t = do
      let r ← ofStages (stagesOf path) c
      return ⟨r.removed, t.putChild s r.tree⟩ := by
  rw [stagesOf]
  split
  · next p rest hstages =>
    rw [hstages]
    have hat : (⟨s :: p.segments⟩ : Pointer).at? t = p.at? c := by
      rw [Pointer.at?, Tree.at?_cons, hc]
      rfl
    by_cases hterminal : rest = [.terminal]
    · have hp : p.segments ≠ [] := by
        intro hnil
        have := Stage.steps_stagesOf path
        rw [hstages, hterminal] at this
        exact hpath (by rw [← this]; simp [Stage.steps, hnil])
      rw [hterminal, ofStages, ofStages, ofPointer, ofPointer, Pointer.remove_cons hp hc]
      rfl
    · rw [ofStages_literal hterminal, ofStages_literal hterminal, hat]
      cases p.at? c with
      | none =>
        have hself : t.putChild s (none c).tree = t := Tree.putChild_self hc
        rw [Option.elim_none, Option.elim_none, pure_bind, hself]
        rfl
      | some v =>
        rw [Option.elim_some, Option.elim_some, bind_assoc]
        simp only [pure_bind, Tree.putAt_cons hc]
  · have hat : (⟨[s]⟩ : Pointer).at? t = some c := by
      rw [Pointer.at?, Tree.at?_cons, hc]
      rfl
    have hput : ∀ v, t.putAt [s] v = t.putChild s v := fun v => Tree.putAt_cons hc [] v
    rw [ofStages_literal (Stage.stagesOf_ne_terminal hpath), hat, Option.elim_some]
    simp only [hput]

/-- What removing below a child comes to. -/
lemma returns_stagesOf_key {s : Segment} {path : List Step} (hpath : path ≠ []) {t c : Tree}
    (hc : t.child? s = some c) {r : Removal} (hr : Run.Returns (ofStages (stagesOf path) c) r) :
    Run.Returns (ofStages (stagesOf (.key s :: path)) t) ⟨r.removed, t.putChild s r.tree⟩ := by
  rw [ofStages_stagesOf_key_of_child? hpath hc]
  exact hr.bind (Run.returns_pure _)

/-- Below a child that does not exist there is nothing to remove. -/
lemma ofStages_stagesOf_key_of_none {s : Segment} {path : List Step} {t : Tree}
    (hc : t.child? s = .none) : ofStages (stagesOf (.key s :: path)) t = return none t := by
  have hliteral : ∀ (p : Pointer) (rest : List Stage),
      ofStages (.literal ⟨s :: p.segments⟩ :: rest) t = return none t := by
    intro p rest
    have hat : (⟨s :: p.segments⟩ : Pointer).at? t = Option.none := by
      rw [Pointer.at?, Tree.at?_cons, hc]
      rfl
    by_cases hterminal : rest = [.terminal]
    · rw [hterminal, ofStages, ofPointer, Pointer.remove_of_absent hat]
      rfl
    · rw [ofStages_literal hterminal, hat, Option.elim_none]
  rw [stagesOf]
  split
  · exact hliteral _ _
  · exact hliteral .root _

end Removal

end DocumentPath
