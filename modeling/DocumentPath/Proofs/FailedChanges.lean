import Mathlib
import DocumentPath.Proofs.Landings
import DocumentPath.Proofs.Writes

/-!
# Changes that fail

An operation on one location either is carried out or leaves the tree exactly as it was
(`Pointer.all_or_nothing`): no container and no padding is created by an operation that then fails.

For the operations that create containers as a write does this is `Tree.Opens.spares_atParent`.  A copy
creates them differently, since it reuses and appends elements of arrays, but for the same reason nothing
fails below a container that it has created (`Tree.copyOver_freshAlong_error`).
-/

namespace DocumentPath

/-- Inserting a value that is there already changes nothing. -/
lemma Entries.insert_self {κ α : Type*} [DecidableEq κ] {es : Entries κ α} {k : κ} {v : α}
    (h : get? es k = some v) : insert es k v = es := by
  rw [← replace_eq_insert h, replace_self h]

namespace Tree

/-- A copy never fails where it starts from nothing. -/
lemma copyOver_freshAlong_error (v : Tree) (w p : List Segment) (pl : Placement) :
    (copyOver v w p pl (freshAlong p)).1.error = none := by
  induction p generalizing w pl with
  | nil => rfl
  | cons s rest ih =>
    rw [freshAlong, freshFor]
    cases s.isIndex with
    | true =>
      have hseat : seat? pl (w ++ [s]) s rest [] = none := by
        rw [seat?, slot?, Option.filter_eq_none_iff]
        intro i _
        simp
      rw [if_pos rfl, copyOver_array_new v w pl hseat]
      exact ih _ _
    | false =>
      have hfield : fieldAlong [] s rest = freshAlong rest := rfl
      rw [if_neg Bool.false_ne_true, copyOver_map v w pl (ready_freshAlong rest), hfield]
      exact ih _ _

/-- A copy that fails has changed nothing. -/
theorem spares_copyOver (v : Tree) (w p : List Segment) (pl : Placement) (t : Tree) :
    (copyOver v w p pl t).1.Spares t := by
  induction p generalizing w pl t with
  | nil => exact Outcome.spares_ok t v
  | cons s rest ih =>
    intro e he
    rcases copyOver_cons_cases v w s rest pl t with ⟨e', hfail⟩ | ⟨fields, rfl, hready⟩ |
      ⟨items, i, rfl, hseat⟩ | ⟨items, rfl, hseat⟩
    · rw [hfail]
      rfl
    · rw [copyOver_map v w pl hready] at he ⊢
      have hbelow := ih _ _ _ e he
      cases hget : Entries.get? fields s.key with
      | some c =>
        have hfield : fieldAlong fields s rest = c := by rw [fieldAlong, hget, Option.getD_some]
        rw [hfield] at hbelow ⊢
        rw [hbelow, Entries.insert_self hget]
      | none =>
        have hfield : fieldAlong fields s rest = freshAlong rest := by
          rw [fieldAlong, hget, Option.getD_none]
        rw [hfield] at he
        exact absurd ((copyOver_freshAlong_error v _ rest _).symm.trans he) (by simp)
    · rw [copyOver_array_reused v w pl hseat] at he ⊢
      have hbelow := ih _ _ _ e he
      have hi : i < items.length := lt_length_of_seat? hseat
      rw [List.getElem?_eq_getElem hi, Option.getD_some] at hbelow ⊢
      rw [hbelow, List.set_getElem_self]
    · rw [copyOver_array_new v w pl hseat] at he
      exact absurd ((copyOver_freshAlong_error v _ rest _).symm.trans he) (by simp)

/-- A merge that fails has changed nothing. -/
lemma spares_mergeRoot (v t : Tree) : (v.mergeRoot t).Spares t := by
  unfold mergeRoot
  split
  · exact Outcome.spares_ok _ _
  · exact Outcome.spares_ok _ _
  · exact Outcome.spares_fail _ _

end Tree

namespace Pointer

/-- Opening a container that fails changes nothing. -/
lemma spares_openContainer (p : Pointer) (t : Tree) : (p.openContainer t).Spares t := by
  unfold openContainer
  split
  · split
    · exact Outcome.spares_ok t t
    · exact Outcome.spares_fail _ t
  · exact (Tree.opens_openChild.spares_atParent _ t).mapError _

/-- Setting a value that fails changes nothing. -/
lemma spares_set (p : Pointer) (v t : Tree) : (p.set v t).Spares t := by
  unfold set
  split
  · exact Outcome.spares_ok t v
  · exact ((Tree.opens_setChild v).spares_atParent _ t).mapError _

/-- Adding a value that fails changes nothing. -/
lemma spares_add (p : Pointer) (v t : Tree) : (p.add v t).Spares t := by
  unfold add
  split
  · split
    · exact Outcome.spares_ok t _
    · exact Outcome.spares_fail _ t
  · exact ((Tree.opens_addToChild v).spares_atParent _ t).mapError _

/-- Copying a location that fails changes nothing. -/
lemma spares_copy (p : Pointer) (source : Tree) (filter : Option Filter) (t : Tree) :
    (p.copy source filter t).Spares t := by
  unfold copy copyPlaced
  split
  · exact Outcome.spares_ok t t
  · next v _ =>
    split
    · split
      · exact (Tree.spares_mergeRoot v t).mapError _
      · next hroot =>
        rw [isRoot_eq_true_iff] at hroot
        rw [Tree.copyInto_eq_copyOver v [] hroot]
        exact (Tree.spares_copyOver v [] p.segments .empty t).mapError _
    · exact Outcome.spares_ok t t

/-- Transforming a location that fails changes nothing. -/
lemma spares_apply (p : Pointer) (f : Tree → Except PathError Tree) (t : Tree) :
    (p.apply f t).Spares t := by
  unfold apply
  cases hs : p.tail? with
  | none => exact Outcome.spares_ofExcept t (f t)
  | some s =>
    cases hparent : p.head.at? t with
    | none => exact Outcome.spares_fail _ t
    | some parent =>
      simp only
      split
      · cases hv : parent.child? s with
        | none => exact Outcome.spares_ok t t
        | some v =>
          -- a transform that fails leaves the node, which is put back where it stands
          intro e he
          have hsame : (Outcome.ofExcept v (f v)).tree = v := Outcome.spares_ofExcept v (f v) e he
          change t.putAt p.segments (Outcome.ofExcept v (f v)).tree = t
          rw [hsame]
          refine Tree.putAt_self ((at?_of_tail? hs t).trans ?_)
          rw [hparent, Option.bind_some, hv]
      · exact Outcome.spares_fail _ t

/-- Opening a container, writing, appending, copying and transforming at one location either are carried
out or leave the tree exactly as it was. -/
theorem all_or_nothing (p : Pointer) (f : Tree → Except PathError Tree) (filter : Option Filter)
    (v source t : Tree) :
    (p.openContainer t).Spares t ∧ (p.set v t).Spares t ∧ (p.setWith f v t).Spares t ∧
      (p.add v t).Spares t ∧ (p.addWith f v t).Spares t ∧ (p.copy source filter t).Spares t ∧
      (p.apply f t).Spares t := by
  refine ⟨p.spares_openContainer t, p.spares_set v t, ?_, p.spares_add v t, ?_,
    p.spares_copy source filter t, p.spares_apply f t⟩
  · unfold setWith
    cases f v with
    | ok image => exact p.spares_set image t
    | error e => exact Outcome.spares_fail e t
  · unfold addWith
    cases f v with
    | ok image => exact p.spares_add image t
    | error e => exact Outcome.spares_fail e t

end Pointer

end DocumentPath
