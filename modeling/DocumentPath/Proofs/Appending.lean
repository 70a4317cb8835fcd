import Mathlib
import DocumentPath.Proofs.ChangeRuns
import DocumentPath.Proofs.Writes

/-!
# Appending and opening

Appending to an array and opening a container go the way of a write and then look at what is there.  They
fail where a write fails, and besides where the location holds a node of the wrong kind
(`Pointer.add_error_eq_none_iff`, `Pointer.openContainer_error_eq_none_iff`).

Appending several values one after another leaves them in order behind the elements that were there
(`Pointer.at?_sequence_add`).  Opening gives the node at the location (`Pointer.exists_opened`) and changes
nothing if there is one (`Pointer.openContainer_of_at?`), so that opening twice is opening once.
`Pointer.append_and_open` puts all this together.
-/

namespace DocumentPath

namespace Tree

/-! ### Opening what is there -/

/-- Opening a container that is there changes nothing. -/
theorem atParent_openChild_of_at? {p : List Segment} (hp : p ≠ []) {t u : Tree} (hu : t.at? p = some u)
    (hcont : u.isContainer = true) : atParent openChild p t = .ok t := by
  induction p generalizing t with
  | nil => exact absurd rfl hp
  | cons s rest ih =>
    obtain ⟨c, hc, hrest⟩ := at?_cons_eq_some_iff.mp hu
    cases rest with
    | nil =>
      obtain rfl := Option.some.inj hrest
      rw [atParent, openChild, ensureChild_of_child? hc]
      simp only [hc, hcont, if_true]
    | cons next rest =>
      -- the child has a child of its own, so that the walk goes on below it
      obtain ⟨d, hd, -⟩ := at?_cons_eq_some_iff.mp hrest
      rw [atParent, ensureChild_of_child? hc]
      simp only [hc, (admits_of_child? hd).1, if_true]
      rw [ih (List.cons_ne_nil next rest) hrest, Outcome.within, Outcome.ok, putAt_self]
      · rfl
      · rw [at?_singleton, hc]

/-- Opening a location either gives the node that is there afterwards, or fails with the error of the
change. -/
theorem exists_openedAt {p : List Segment} (hp : p ≠ []) (t : Tree) :
    (∃ node, openedAt p t = .ok node ∧ (atParent openChild p t).error = none ∧
      (atParent openChild p t).tree.at? p = some node) ∨
    ∃ o, openedAt p t = .error o ∧ (atParent openChild p t).error = some o := by
  induction p generalizing t with
  | nil => exact absurd rfl hp
  | cons s rest ih =>
    cases rest with
    | nil =>
      rw [openedAt, atParent, openChild]
      cases t.ensureChild s (.map []) with
      | error o => exact .inr ⟨o, rfl, rfl⟩
      | ok t' =>
        simp only
        cases hc : t'.child? s with
        | none => exact .inr ⟨_, rfl, rfl⟩
        | some c =>
          simp only
          cases c.isContainer with
          | true => exact .inl ⟨c, rfl, rfl, (at?_singleton t' s).trans hc⟩
          | false => exact .inr ⟨_, rfl, rfl⟩
    | cons next rest =>
      rw [openedAt, atParent]
      cases t.ensureChild s (freshFor next) with
      | error o => exact .inr ⟨o, rfl, rfl⟩
      | ok t' =>
        simp only
        cases hc : t'.child? s with
        | none => exact .inr ⟨_, rfl, rfl⟩
        | some c =>
          simp only
          cases c.isContainer with
          | true =>
            simp only [if_true, at?_within_cons hc]
            exact ih (List.cons_ne_nil next rest) c
          | false => exact .inr ⟨_, rfl, rfl⟩

end Tree

namespace Pointer

/-! ### When the operations succeed -/

lemma set_error_eq_none_iff (p : Pointer) (v t : Tree) :
    (p.set v t).error = none ↔ t.WritableAt p.segments := by
  cases hroot : p.isRoot with
  | true =>
    rw [set, hroot, if_pos rfl, isRoot_eq_true_iff.mp hroot]
    exact iff_of_true rfl (Tree.writableAt_nil t)
  | false =>
    rw [set, hroot, if_neg Bool.false_ne_true, Outcome.mapError, Option.map_eq_none_iff]
    exact Tree.atParent_setChild_error_eq_none_iff v p.segments t

/-- Appending succeeds where a write does, unless something other than an array is there. -/
theorem add_error_eq_none_iff (p : Pointer) (v t : Tree) : (p.add v t).error = none ↔
    t.WritableAt p.segments ∧ ∀ u, p.at? t = some u → u.kind = .array := by
  cases hroot : p.isRoot with
  | true =>
    rw [add, hroot, if_pos rfl, at?, isRoot_eq_true_iff.mp hroot]
    simp only [Tree.at?_nil, Option.some.injEq, forall_eq', Tree.writableAt_nil, true_and]
    cases t.kind with
    | array => exact iff_of_true rfl rfl
    | map | value => exact iff_of_false (by simp [Outcome.fail]) (by simp)
  | false =>
    rw [add, hroot, if_neg Bool.false_ne_true, Outcome.mapError, Option.map_eq_none_iff]
    exact (Tree.opens_addToChild v).atParent_error_eq_none_iff (Tree.addToChild_error_eq_none_iff v)
      (ne_nil_of_isRoot_eq_false hroot) t

/-- Opening succeeds where a write does, unless a value is there. -/
theorem openContainer_error_eq_none_iff (p : Pointer) (t : Tree) : (p.openContainer t).error = none ↔
    t.WritableAt p.segments ∧ ∀ u, p.at? t = some u → u.isContainer = true := by
  cases hroot : p.isRoot with
  | true =>
    rw [openContainer, hroot, if_pos rfl, at?, isRoot_eq_true_iff.mp hroot]
    simp only [Tree.at?_nil, Option.some.injEq, forall_eq', Tree.writableAt_nil, true_and]
    cases t.isContainer with
    | true => exact iff_of_true rfl rfl
    | false => exact iff_of_false (by simp [Outcome.fail]) Bool.false_ne_true
  | false =>
    rw [openContainer, hroot, if_neg Bool.false_ne_true, Outcome.mapError, Option.map_eq_none_iff]
    exact Tree.opens_openChild.atParent_error_eq_none_iff Tree.openChild_error_eq_none_iff
      (ne_nil_of_isRoot_eq_false hroot) t

/-! ### What the operations leave -/

/-- Values appended one after another follow, in order, the elements that were there before, if any. -/
theorem at?_sequence_add {p : Pointer} {vs : List Tree} (hvs : vs ≠ []) {t : Tree}
    (h : (Outcome.sequence t (vs.map p.add)).error = none) :
    ∃ items, (p.at? t).getD (.array []) = .array items ∧
      p.at? (Outcome.sequence t (vs.map p.add)).tree = some (.array (items ++ vs)) := by
  induction vs generalizing t with
  | nil => exact absurd rfl hvs
  | cons v vs ih =>
    rw [List.map_cons, Outcome.sequence_cons] at h ⊢
    obtain ⟨hfirst, hrest, htree⟩ := Outcome.andThen_of_error_eq_none h
    obtain ⟨items, hitems, hadded⟩ := at?_add hfirst
    refine ⟨items, hitems, ?_⟩
    rw [htree]
    cases vs with
    | nil => exact hadded
    | cons v' vs =>
      obtain ⟨items', hitems', hall⟩ := ih (List.cons_ne_nil v' vs) hrest
      rw [hadded, Option.getD_some, Tree.array.injEq] at hitems'
      rw [hall, ← hitems', List.append_assoc, List.singleton_append]

/-- Opening a container that is there changes nothing. -/
theorem openContainer_of_at? {p : Pointer} {t u : Tree} (hu : p.at? t = some u)
    (hcont : u.isContainer = true) : p.openContainer t = .ok t := by
  cases hroot : p.isRoot with
  | true =>
    rw [at?, isRoot_eq_true_iff.mp hroot] at hu
    obtain rfl := Option.some.inj hu
    rw [openContainer, hroot, if_pos rfl, if_pos hcont]
  | false =>
    rw [openContainer, hroot, if_neg Bool.false_ne_true,
      Tree.atParent_openChild_of_at? (ne_nil_of_isRoot_eq_false hroot) hu hcont]
    rfl

/-- Opening gives the node that is at the location afterwards, or fails with the error of the change. -/
lemma exists_opened (p : Pointer) (t : Tree) :
    (∃ node, p.opened t = .ok node ∧ (p.openContainer t).error = none ∧
      p.at? (p.openContainer t).tree = some node) ∨
    ∃ e, p.opened t = .error e ∧ (p.openContainer t).error = some e := by
  cases hroot : p.isRoot with
  | true =>
    rw [opened, openContainer, hroot, if_pos rfl, if_pos rfl, at?, isRoot_eq_true_iff.mp hroot]
    cases t.isContainer with
    | true => exact .inl ⟨t, rfl, rfl, rfl⟩
    | false => exact .inr ⟨_, rfl, rfl⟩
  | false =>
    rw [opened, openContainer, hroot, if_neg Bool.false_ne_true, if_neg Bool.false_ne_true]
    rcases Tree.exists_openedAt (ne_nil_of_isRoot_eq_false hroot) t with ⟨node, hnode, herror, hat⟩ |
      ⟨o, hopened, herror⟩
    · exact .inl ⟨node, by rw [hnode]; rfl, by rw [Outcome.mapError, herror]; rfl, hat⟩
    · exact .inr ⟨o.at p, by rw [hopened]; rfl, by rw [Outcome.mapError, herror]; rfl⟩

/-- Opening fails as the change fails. -/
lemma opened_eq_error_iff {p : Pointer} {t : Tree} {e : PathError} :
    p.opened t = .error e ↔ (p.openContainer t).error = some e := by
  rcases p.exists_opened t with ⟨node, hnode, herror, -⟩ | ⟨e', hopened, herror⟩
  · simp [hnode, herror]
  · simp [hopened, herror]

/-- The node that opening gives is a container and is at the location afterwards.  It is the node that was
there before, or an empty map. -/
theorem opened_eq_ok {p : Pointer} {t node : Tree} (h : p.opened t = .ok node) :
    node.isContainer = true ∧ p.at? (p.openContainer t).tree = some node ∧
      node = (p.at? t).getD (.map []) := by
  rcases p.exists_opened t with ⟨node', hnode, herror, hat⟩ | ⟨e, hopened, -⟩
  · obtain rfl := Except.ok.inj (hnode.symm.trans h)
    have hnode' : node' = (p.at? t).getD (.map []) :=
      Option.some.inj (hat.symm.trans (at?_openContainer herror))
    refine ⟨?_, hat, hnode'⟩
    rw [hnode']
    cases hu : p.at? t with
    | none => rfl
    | some u => exact ((p.openContainer_error_eq_none_iff t).mp herror).2 u hu
  · exact absurd (h.symm.trans hopened) (by simp)

/-- Appending leaves the array that was at the location, or the empty array, with the value behind its
elements, and appending several values in turn leaves it with these behind its elements in order.  Opening
gives the container that is at the location afterwards: the one that was there, in an unchanged tree, or else
an empty map; opening again changes nothing.  Both operations fail exactly where writing any value fails, and
where something is at the location that is no array, or no container. -/
theorem append_and_open (p : Pointer) (v v' t : Tree) :
    ((p.add v t).error = none → ∃ items, (p.at? t).getD (.array []) = .array items ∧
      p.at? (p.add v t).tree = some (.array (items ++ [v]))) ∧
    (∀ vs, vs ≠ [] → (Outcome.sequence t (vs.map p.add)).error = none →
      ∃ items, (p.at? t).getD (.array []) = .array items ∧
        p.at? (Outcome.sequence t (vs.map p.add)).tree = some (.array (items ++ vs))) ∧
    (∀ node, p.opened t = .ok node → node.isContainer = true ∧
      p.at? (p.openContainer t).tree = some node ∧ node = (p.at? t).getD (.map []) ∧
      (∀ u, p.at? t = some u → (p.openContainer t).tree = t) ∧
      p.openContainer (p.openContainer t).tree = .ok (p.openContainer t).tree) ∧
    (∀ e, p.opened t = .error e ↔ (p.openContainer t).error = some e) ∧
    ((p.add v t).error ≠ none ↔
      (p.set v' t).error ≠ none ∨ ∃ u, p.at? t = some u ∧ u.kind ≠ .array) ∧
    ((p.openContainer t).error ≠ none ↔
      (p.set v' t).error ≠ none ∨ ∃ u, p.at? t = some u ∧ u.isContainer = false) := by
  refine ⟨at?_add, fun vs hvs => at?_sequence_add hvs, fun node hnode => ?_, fun e => opened_eq_error_iff,
    ?_, ?_⟩
  · obtain ⟨hcont, hat, hnode'⟩ := opened_eq_ok hnode
    refine ⟨hcont, hat, hnode', fun u hu => ?_, openContainer_of_at? hat hcont⟩
    rw [hu, Option.getD_some] at hnode'
    rw [openContainer_of_at? hu (hnode' ▸ hcont)]
    rfl
  · rw [ne_eq, ne_eq, add_error_eq_none_iff, set_error_eq_none_iff, not_and_or]
    simp
  · rw [ne_eq, ne_eq, openContainer_error_eq_none_iff, set_error_eq_none_iff, not_and_or]
    simp

/-- In `{"a": [true]}` nothing is at `/a/2`: two values appended there are the elements of a new array, behind
a null, and opening gives an empty map. -/
theorem append_and_open_gap : ∃ (p : Pointer) (t : Tree), p.text = "/a/2" ∧
    t = .map [("a", .array [.bool true])] ∧ [Tree.null, .bool false] ≠ [] ∧
    (Outcome.sequence t ([.null, .bool false].map p.add)).error = none ∧
    p.at? (Outcome.sequence t ([.null, .bool false].map p.add)).tree
      = some (.array [.null, .bool false]) ∧
    p.opened t = .ok (.map []) ∧ p.at? (p.openContainer t).tree = some (.map []) ∧
    p.openContainer (p.openContainer t).tree = .ok (p.openContainer t).tree := by
  let p : Pointer := ⟨[⟨"a"⟩, ⟨"2"⟩]⟩
  let t : Tree := .map [("a", .array [.bool true])]
  have hne : [Tree.null, .bool false] ≠ [] := by decide
  have hok : (Outcome.sequence t ([.null, .bool false].map p.add)).error = none := by decide
  have hopened : p.opened t = .ok (.map []) := rfl
  obtain ⟨-, hadds, hopens, -⟩ := append_and_open p .null .null t
  obtain ⟨items, hitems, hadded⟩ := hadds _ hne hok
  obtain ⟨-, hat, -, -, hagain⟩ := hopens _ hopened
  obtain rfl : [] = items := Tree.array.inj hitems
  exact ⟨p, t, rfl, rfl, hne, hok, hadded, hopened, hat, hagain⟩

end Pointer

end DocumentPath
