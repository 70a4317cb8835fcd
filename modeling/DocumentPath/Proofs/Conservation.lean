import Mathlib
import DocumentPath.Proofs.Detaching

/-!
# What a removal conserves

A removal takes nodes out of a tree one at a time, some of them out of nodes that it has not finished
visiting.  The parts of a tree are its nodes, each without its children.  Taking a child splits the parts
of a node between the child and what is left of the node (`parts_of_takeChild?`), putting a node in place
exchanges its parts for those of the node that stood there (`parts_putAt`), and so every stage of a removal
shares the parts of the tree out between what it returns and what it leaves (`conserves_ofStages`).  This
needs no assumption on the tree, and none on the cache.
-/

namespace DocumentPath

/-! ### Entries -/

namespace Entries

variable {κ α : Type*} [DecidableEq κ]

/-- Erasing an entry takes its value from the values. -/
lemma perm_map_snd_erase {es : Entries κ α} {k : κ} {v : α} (h : get? es k = some v) :
    (es.map Prod.snd).Perm (v :: (erase es k).map Prod.snd) := by
  induction es with
  | nil => simp at h
  | cons e rest ih =>
    obtain ⟨k', v'⟩ := e
    by_cases hk : k' = k
    · rw [get?, if_pos hk, Option.some_inj] at h
      rw [erase, if_pos hk, ← h]
      exact List.Perm.refl _
    · rw [get?, if_neg hk] at h
      rw [erase, if_neg hk]
      exact ((ih h).cons v').trans (List.Perm.swap v v' _)

/-- Replacing a value exchanges it among the values. -/
lemma perm_map_snd_replace {es : Entries κ α} {k : κ} {v : α} (h : get? es k = some v) (u : α) :
    (v :: (replace es k u).map Prod.snd).Perm (u :: es.map Prod.snd) := by
  induction es with
  | nil => simp at h
  | cons e rest ih =>
    obtain ⟨k', v'⟩ := e
    by_cases hk : k' = k
    · rw [get?, if_pos hk, Option.some_inj] at h
      rw [replace, if_pos hk, ← h]
      exact List.Perm.swap u v' _
    · rw [get?, if_neg hk] at h
      rw [replace, if_neg hk]
      exact (List.Perm.swap v' v _).trans (((ih h).cons v').trans (List.Perm.swap u v' _))

end Entries

namespace Tree

/-! ### The parts of a tree -/

/-- A node without its children. -/
def bare : Tree → Tree
  | .array _ => .array []
  | .map _ => .map []
  | t => t

/-- The nodes of a tree, each without its children, as often as they occur. -/
def parts (t : Tree) : Multiset Tree := t.nodes.map bare

/-- The nodes of a tree that are no containers, as often as they occur. -/
def scalars (t : Tree) : Multiset Tree := t.nodes.filter fun u => u.kind = .value

/-- The parts of a tree are its root and the parts of the children. -/
theorem parts_eq (t : Tree) : t.parts = t.bare ::ₘ (t.children.map parts).sum := by
  have hbelow : ∀ l : List Tree,
      ((l.flatMap nodes).map bare : Multiset Tree) = (l.map parts).sum := by
    intro l
    induction l with
    | nil => rfl
    | cons c rest ih =>
      rw [List.flatMap_cons, List.map_append, ← Multiset.coe_add, ih, List.map_cons, List.sum_cons,
        parts]
  rw [parts, nodes_eq, List.map_cons, ← Multiset.cons_coe, hbelow]

/-- A tree has as many parts as nodes. -/
lemma card_parts (t : Tree) : t.parts.card = t.nodes.length := by
  rw [parts, Multiset.coe_card, List.length_map]

/-- A node that is no container has no children to lose. -/
lemma bare_of_kind_value {t : Tree} (h : t.kind = .value) : t.bare = t := by
  cases t with
  | array | map => exact absurd h (by simp [kind])
  | null | bool | number | text => rfl

/-- A bare node is of the kind of the node. -/
lemma kind_bare (t : Tree) : t.bare.kind = t.kind := by cases t <;> rfl

/-- The parts among others that are no containers. -/
def scalarParts : Multiset Tree →+ Multiset Tree where
  toFun parts := parts.filter fun u => u.kind = .value
  map_zero' := Multiset.filter_zero _
  map_add' := Multiset.filter_add _

/-- The scalars of a tree are those of its parts which are no containers. -/
lemma scalars_eq (t : Tree) : t.scalars = scalarParts t.parts := by
  refine congrArg ((↑) : List Tree → Multiset Tree) ?_
  rw [List.filter_map]
  simp only [Function.comp_def, kind_bare]
  refine ((List.map_congr_left fun u hu => ?_).trans (List.map_id _)).symm
  exact bare_of_kind_value (by simpa using (List.mem_filter.mp hu).2)

/-! ### Taking and replacing nodes -/

/-- Taking a child leaves the same node with one child less. -/
lemma children_of_takeChild? {t t' v : Tree} {s : Segment} (h : t.takeChild? s = some (v, t')) :
    t'.bare = t.bare ∧ t.children.Perm (v :: t'.children) := by
  cases t with
  | array items =>
    obtain ⟨i, -, hi⟩ := Option.bind_eq_some_iff.mp h
    obtain ⟨c, hget, hc⟩ := Option.map_eq_some_iff.mp hi
    obtain ⟨rfl, rfl⟩ := Prod.mk.inj hc
    obtain ⟨hlt, rfl⟩ := List.getElem?_eq_some_iff.mp hget
    exact ⟨rfl, (List.getElem_cons_eraseIdx_perm hlt).symm⟩
  | map fields =>
    obtain ⟨c, hget, hc⟩ := Option.map_eq_some_iff.mp h
    obtain ⟨rfl, rfl⟩ := Prod.mk.inj hc
    exact ⟨rfl, Entries.perm_map_snd_erase hget⟩
  | null | bool | number | text => exact absurd h (by simp [takeChild?])

/-- The parts of a node are shared out between a child that is taken and what is left. -/
theorem parts_of_takeChild? {t t' v : Tree} {s : Segment} (h : t.takeChild? s = some (v, t')) :
    t.parts = t'.parts + v.parts := by
  obtain ⟨hbare, hperm⟩ := children_of_takeChild? h
  have hsum : (t.children.map parts).sum = v.parts + (t'.children.map parts).sum :=
    (hperm.map parts).sum_eq
  rw [parts_eq t, parts_eq t', hbare, hsum, Multiset.cons_add, add_comm v.parts]

/-- Putting a child in place leaves the same node with this child for the former one. -/
lemma children_putChild {t c : Tree} {s : Segment} (h : t.child? s = some c) (v : Tree) :
    (t.putChild s v).bare = t.bare ∧ (c :: (t.putChild s v).children).Perm (v :: t.children) := by
  cases t with
  | array items =>
    obtain ⟨i, hi, hget⟩ := Option.bind_eq_some_iff.mp h
    obtain ⟨hlt, rfl⟩ := List.getElem?_eq_some_iff.mp hget
    have hput : (Tree.array items).putChild s v = .array (items.set i v) := by rw [putChild, hi]
    rw [hput]
    refine ⟨rfl, ?_⟩
    have hold : (Tree.array items).children.Perm (items[i] :: items.eraseIdx i) :=
      (List.getElem_cons_eraseIdx_perm hlt).symm
    have hnew : (Tree.array (items.set i v)).children.Perm (v :: items.eraseIdx i) :=
      List.set_perm_cons_eraseIdx hlt v
    exact (hnew.cons _).trans ((List.Perm.swap _ _ _).trans (hold.symm.cons v))
  | map fields => exact ⟨rfl, Entries.perm_map_snd_replace h v⟩
  | null | bool | number | text => exact absurd h (by simp [child?])

/-- Putting a child back exchanges its parts. -/
lemma parts_putChild {t c : Tree} {s : Segment} (h : t.child? s = some c) (v : Tree) :
    (t.putChild s v).parts + c.parts = t.parts + v.parts := by
  obtain ⟨hbare, hperm⟩ := children_putChild h v
  have hsum : c.parts + ((t.putChild s v).children.map parts).sum
      = v.parts + (t.children.map parts).sum := (hperm.map parts).sum_eq
  rw [parts_eq (t.putChild s v), parts_eq t, hbare, Multiset.cons_add, Multiset.cons_add,
    add_comm _ c.parts, add_comm _ v.parts, hsum]

/-- Putting a node in place exchanges the parts of the node that stood there for its own. -/
theorem parts_putAt {t c : Tree} {p : List Segment} (h : t.at? p = some c) (v : Tree) :
    (t.putAt p v).parts + c.parts = t.parts + v.parts := by
  induction p generalizing t with
  | nil =>
    obtain rfl := Option.some.inj h
    exact add_comm _ _
  | cons s rest ih =>
    obtain ⟨d, hd, hrest⟩ := at?_cons_eq_some_iff.mp h
    have hput : t.putAt (s :: rest) v = t.putChild s (d.putAt rest v) := by rw [putAt, hd]
    have hchild := parts_putChild hd (d.putAt rest v)
    have hbelow := ih hrest
    rw [hput]
    refine add_right_cancel (b := d.parts) ?_
    calc (t.putChild s (d.putAt rest v)).parts + c.parts + d.parts
        = (t.putChild s (d.putAt rest v)).parts + d.parts + c.parts := add_right_comm _ _ _
      _ = t.parts + ((d.putAt rest v).parts + c.parts) := by rw [hchild, add_assoc]
      _ = t.parts + v.parts + d.parts := by rw [hbelow, add_comm d.parts, add_assoc]

end Tree

/-! ### Removals -/

namespace Removal

/-- What is returned and what is left have the parts of the tree between them. -/
def Conserves (t : Tree) (r : Removal) : Prop :=
  t.parts = r.tree.parts + (r.removed.map Tree.parts).sum

/-- With every cache, what is returned and what is left have the parts of the tree between them. -/
def ConservesParts (f : Tree → Run Removal) : Prop := ∀ t σ, Conserves t ((f t).run σ).1

/-- Removing nothing conserves the parts. -/
lemma conserves_none (t : Tree) : Conserves t (none t) := (add_zero _).symm

/-- Removing further from what a removal has left. -/
lemma Conserves.append {t : Tree} {r r' : Removal} (h : Conserves t r) (h' : Conserves r.tree r') :
    Conserves t ⟨r.removed ++ r'.removed, r'.tree⟩ := by
  unfold Conserves at h h' ⊢
  rw [h, h', List.map_append, List.sum_append, add_right_comm, add_assoc]

/-- The order of what is removed makes no difference to the parts. -/
lemma Conserves.reverse {t : Tree} {r : Removal} (h : Conserves t r) :
    Conserves t ⟨r.removed.reverse, r.tree⟩ := by
  unfold Conserves
  rw [List.map_reverse, List.sum_reverse]
  exact h

/-- Removing from the node at a location is removing from the tree. -/
lemma Conserves.putAt {t c : Tree} {p : List Segment} {r : Removal} (hc : t.at? p = some c)
    (h : Conserves c r) : Conserves t ⟨r.removed, t.putAt p r.tree⟩ := by
  have hput := Tree.parts_putAt hc r.tree
  unfold Conserves at h ⊢
  rw [h, ← add_assoc, add_right_comm] at hput
  exact (add_right_cancel hput).symm

/-- A pointer takes one node or none. -/
theorem conserves_ofPointer (p : Pointer) (t : Tree) : Conserves t (ofPointer p t) := by
  have hnothing : p.remove t = (.none, t) → Conserves t (ofPointer p t) := fun h => by
    rw [ofPointer, h]
    exact conserves_none t
  rcases List.eq_nil_or_concat' p.segments with hroot | ⟨w, s, hp⟩
  · refine hnothing (Pointer.remove_eq_none fun s _ hs => ?_)
    rw [Pointer.tail?, hroot] at hs
    exact absurd hs (by simp)
  · cases hv : p.at? t with
    | none => exact hnothing (Pointer.remove_of_absent hv)
    | some v =>
      obtain ⟨parent, parent', hparent, htake, hremove⟩ := Pointer.exists_takeChild?_of_at? hp hv
      have hchild : Conserves parent ⟨[v], parent'⟩ := by
        rw [Conserves, List.map_singleton, List.sum_singleton]
        exact Tree.parts_of_takeChild? htake
      rw [ofPointer, hremove]
      exact hchild.putAt hparent

variable {f : Tree → Run Removal}

/-- A removal that conserves parts does so over all items. -/
lemma parts_fromItems (hf : ConservesParts f) (items : List Tree) (σ : Session) :
    (items.map Tree.parts).sum = (((fromItems f items).run σ).1.2.map Tree.parts).sum
      + (((fromItems f items).run σ).1.1.map Tree.parts).sum := by
  induction items generalizing σ with
  | nil => rfl
  | cons t rest ih =>
    have ht : t.parts = _ := hf t σ
    have hrest := ih ((f t).run σ).2
    have hrun : ((fromItems f (t :: rest)).run σ).1
        = (((f t).run σ).1.removed ++ ((fromItems f rest).run ((f t).run σ).2).1.1,
          ((f t).run σ).1.tree :: ((fromItems f rest).run ((f t).run σ).2).1.2) := rfl
    rw [hrun, List.map_cons, List.sum_cons, List.map_append, List.sum_append, List.map_cons,
      List.sum_cons, ht, hrest, add_add_add_comm]

/-- A removal that conserves parts does so over all fields. -/
lemma parts_fromFields (hf : ConservesParts f) (fields : List (String × Tree)) (σ : Session) :
    ((fields.map Prod.snd).map Tree.parts).sum
      = ((((fromFields f fields).run σ).1.2.map Prod.snd).map Tree.parts).sum
        + (((fromFields f fields).run σ).1.1.map Tree.parts).sum := by
  induction fields generalizing σ with
  | nil => rfl
  | cons e rest ih =>
    have ht : e.2.parts = _ := hf e.2 σ
    have hrest := ih ((f e.2).run σ).2
    have hrun : ((fromFields f (e :: rest)).run σ).1
        = (((f e.2).run σ).1.removed ++ ((fromFields f rest).run ((f e.2).run σ).2).1.1,
          (e.1, ((f e.2).run σ).1.tree) :: ((fromFields f rest).run ((f e.2).run σ).2).1.2) := rfl
    rw [hrun, List.map_cons, List.map_cons, List.sum_cons, List.map_append, List.sum_append,
      List.map_cons, List.map_cons, List.sum_cons, ht, hrest, add_add_add_comm]

/-- A removal that conserves parts does so over all children. -/
lemma conservesParts_fromChildren (hf : ConservesParts f) : ConservesParts (fromChildren f) := by
  intro t σ
  cases t with
  | array items =>
    have hitems := parts_fromItems hf items σ
    rw [Conserves, Tree.parts_eq, Tree.parts_eq (((fromChildren f (.array items)).run σ).1.tree),
      Multiset.cons_add]
    exact congrArg _ hitems
  | map fields =>
    have hfields := parts_fromFields hf fields σ
    rw [Conserves, Tree.parts_eq, Tree.parts_eq (((fromChildren f (.map fields)).run σ).1.tree),
      Multiset.cons_add]
    exact congrArg _ hfields
  | null | bool | number | text => exact conserves_none _

/-- A descent goes on with what is left of the children of each node. -/
lemma conservesParts_downwards (hf : ConservesParts f) (depth : ℕ) :
    ConservesParts (downwards f depth) := by
  induction depth with
  | zero => exact hf
  | succ depth ih => exact fun t σ => (hf t σ).append (conservesParts_fromChildren ih _ _)

/-- Removing children one after another conserves the parts. -/
lemma conservesParts_ofSegments (segments : List Segment) :
    ConservesParts (ofSegments segments) := by
  induction segments with
  | nil => exact fun t _ => conserves_none t
  | cons s rest ih => exact fun t σ => (conserves_ofPointer _ t).append (ih _ _)

/-- Removing all children conserves the parts. -/
lemma conservesParts_ofChildren : ConservesParts ofChildren := by
  intro t σ
  unfold ofChildren
  cases t.kind with
  | array => exact (conservesParts_ofSegments _ t σ).reverse
  | map | value => exact conservesParts_ofSegments _ t σ

/-- Removing through stages shares the parts of a tree out between what it returns and what it leaves. -/
theorem conservesParts_ofStages (stages : List Stage) : ConservesParts (ofStages stages) := by
  induction stages with
  | nil => exact fun t _ => conserves_none t
  | cons stage rest ih =>
    intro t σ
    by_cases hlast : rest = [.terminal]
    · subst hlast
      cases stage with
      | terminal => exact conserves_none t
      | literal p => exact conserves_ofPointer p t
      | wildcard | descent => exact conservesParts_ofChildren t σ
    · cases stage with
      | terminal => exact conserves_none t
      | literal p =>
        rw [ofStages_literal hlast]
        cases hc : p.at? t with
        | none => exact conserves_none t
        | some c => exact (ih c σ).putAt hc
      | wildcard =>
        rw [ofStages_wildcard hlast]
        exact conservesParts_fromChildren ih t σ
      | descent =>
        rw [ofStages_descent hlast]
        exact conservesParts_downwards ih t.height t σ

/-- What is counted in the parts of a tree is shared out with them. -/
lemma Conserves.count {M : Type*} [AddCommMonoid M] (φ : Multiset Tree →+ M) {g : Tree → M}
    (hg : ∀ u, g u = φ u.parts) {t : Tree} {r : Removal} (h : Conserves t r) :
    g t = g r.tree + (r.removed.map g).sum := by
  have hremoved : (r.removed.map g).sum = φ (r.removed.map Tree.parts).sum := by
    rw [map_list_sum, List.map_map]
    exact congrArg _ (List.map_congr_left fun u _ => hg u)
  rw [hg, hg, hremoved, ← map_add]
  exact congrArg φ h

end Removal

namespace Selector

/-- Removing through a selector conserves the parts. -/
lemma conserves_remove (s : Selector) (t : Tree) (σ : Session) :
    Removal.Conserves t ((s.remove t).run σ).1 := by
  unfold remove
  cases s.asPointer? with
  | none => exact Removal.conservesParts_ofStages s.stages t σ
  | some p => exact Removal.conserves_ofPointer p t

/-- Removing through a path loses nothing and returns nothing twice: the scalars of the tree are those which
are left together with those of the nodes that are returned, each as often as before, and the nodes are as
many. -/
theorem remove_conserves (s : Selector) (t : Tree) (σ : Session) :
    t.scalars = ((s.remove t).run σ).1.tree.scalars
        + (((s.remove t).run σ).1.removed.map Tree.scalars).sum ∧
      t.nodes.length = ((s.remove t).run σ).1.tree.nodes.length
        + (((s.remove t).run σ).1.removed.map fun v => v.nodes.length).sum := by
  have hparts := s.conserves_remove t σ
  constructor
  · exact hparts.count Tree.scalarParts Tree.scalars_eq
  · exact hparts.count Multiset.cardHom fun u => u.card_parts.symm

end Selector

end DocumentPath
