import Mathlib
import DocumentPath.Pointer.Write
import DocumentPath.Proofs.CopySteps

/-!
# Writing at a location

When a segment can be written into a node (`Tree.Admits`): into any map, and into an array if it is an
index.  The walk of `Tree.atParent` to the container of a location meets three cases at each step, listed
in `Tree.atParent_cons_cases`: it fails and has changed nothing, it goes on below a child that is a
container, or it goes on below a container that it has just created.  A created container admits the
segment that it was created for, so that nothing fails below it (`Tree.atParent_of_vacant`).

Whether a write succeeds is thus decided by the nodes that are there (`Tree.WritableAt`), and what has been
written is read back (`Pointer.at?_set_and_ok_iff`).  A write that fails leaves the tree as it was
(`Tree.Opens.spares_atParent`).
-/

namespace DocumentPath

namespace Entries

variable {κ α : Type*} [DecidableEq κ]

/-- A replaced value is read under its key. -/
lemma get?_replace_self {es : Entries κ α} {k : κ} {v : α} (h : get? es k = some v) (v' : α) :
    get? (replace es k v') k = some v' := by
  rw [replace_eq_insert h, get?_insert_self]

/-- Replacing a value by itself changes nothing. -/
lemma replace_self {es : Entries κ α} {k : κ} {v : α} (h : get? es k = some v) :
    replace es k v = es := by
  induction es with
  | nil => simp at h
  | cons e rest ih =>
    obtain ⟨k', v'⟩ := e
    unfold get? at h
    unfold replace
    split at h
    · next hk => rw [if_pos hk, Option.some.inj h]
    · next hk => rw [if_neg hk, ih h]

/-- Of two replacements under one key the second counts. -/
lemma replace_replace (es : Entries κ α) (k : κ) (v v' : α) :
    replace (replace es k v) k v' = replace es k v' := by
  induction es with
  | nil => rfl
  | cons e rest ih =>
    obtain ⟨k', v₀⟩ := e
    by_cases hk : k' = k
    · rw [replace, if_pos hk, replace, if_pos hk, replace, if_pos hk]
    · rw [replace, if_neg hk, replace, if_neg hk, ih, replace, if_neg hk]

end Entries

/-- A change that was stopped has left the tree as it was. -/
def Outcome.Spares {ε : Type} (o : Outcome ε) (t : Tree) : Prop := ∀ e, o.error = some e → o.tree = t

namespace Outcome

variable {ε δ : Type}

/-- A success spares any tree. -/
lemma spares_ok (t t' : Tree) : (ok t' : Outcome ε).Spares t := fun _ h => absurd h (by simp [ok])

/-- A failure with the tree that it has met spares it. -/
lemma spares_fail (e : ε) (t : Tree) : (fail e t).Spares t := fun _ _ => rfl

/-- What succeeds spares any tree. -/
lemma spares_of_error_eq_none {o : Outcome ε} (h : o.error = none) (t : Tree) : o.Spares t :=
  fun e he => absurd (h.symm.trans he) (by simp)

/-- A computation that fails spares the tree that it has met. -/
lemma spares_ofExcept (t : Tree) (r : Except ε Tree) : (ofExcept t r).Spares t := by
  cases r with
  | ok t' => exact spares_ok t t'
  | error e => exact spares_fail e t

/-- Naming the error of what spares a tree leaves the tree spared. -/
lemma Spares.mapError {o : Outcome ε} {t : Tree} (h : o.Spares t) (f : ε → δ) :
    (o.mapError f).Spares t := by
  intro e he
  obtain ⟨e', he', -⟩ := Option.map_eq_some_iff.mp he
  exact h e' he'

end Outcome

namespace Tree

/-! ### Putting a node in place -/

/-- The child just put in place is the one that the segment names. -/
lemma child?_putChild_self {t c : Tree} {s : Segment} (hc : t.child? s = some c) (v : Tree) :
    (t.putChild s v).child? s = some v := by
  cases t with
  | array items =>
    obtain ⟨i, hi, hget⟩ := Option.bind_eq_some_iff.mp hc
    have hlt : i < items.length := (List.getElem?_eq_some_iff.mp hget).1
    simp only [putChild, hi, child?, Option.bind_some, element?]
    rw [List.getElem?_set_self hlt]
  | map fields => exact Entries.get?_replace_self hc v
  | null | bool | number | text => exact absurd hc (by simp [child?])

/-- Putting a child where it stands changes nothing. -/
lemma putChild_self {t c : Tree} {s : Segment} (hc : t.child? s = some c) : t.putChild s c = t := by
  cases t with
  | array items =>
    obtain ⟨i, hi, hget⟩ := Option.bind_eq_some_iff.mp hc
    obtain ⟨hlt, hval⟩ := List.getElem?_eq_some_iff.mp hget
    simp only [putChild, hi]
    rw [← hval, List.set_getElem_self]
  | map fields => exact congrArg Tree.map (Entries.replace_self hc)
  | null | bool | number | text => rfl

/-- Putting a node back goes through the child that it is below. -/
lemma putAt_cons {t c : Tree} {s : Segment} (hc : t.child? s = some c) (rest : List Segment)
    (v : Tree) : t.putAt (s :: rest) v = t.putChild s (c.putAt rest v) := by
  rw [putAt, hc]

/-- Putting a node where it stands changes nothing. -/
theorem putAt_self {t u : Tree} {p : List Segment} (hu : t.at? p = some u) : t.putAt p u = t := by
  induction p generalizing t with
  | nil => exact (Option.some.inj hu).symm
  | cons s rest ih =>
    obtain ⟨c, hc, hrest⟩ := at?_cons_eq_some_iff.mp hu
    rw [putAt_cons hc, ih hrest, putChild_self hc]

/-- What is put at a location is found there. -/
theorem at?_putAt {t u : Tree} {p : List Segment} (hu : t.at? p = some u) (v : Tree)
    (q : List Segment) : (t.putAt p v).at? (p ++ q) = v.at? q := by
  induction p generalizing t with
  | nil => rfl
  | cons s rest ih =>
    obtain ⟨c, hc, hrest⟩ := at?_cons_eq_some_iff.mp hu
    rw [putAt_cons hc, List.cons_append, at?_cons, child?_putChild_self hc, Option.bind_some, ih hrest]

/-- Of two children put back at one segment the second counts. -/
lemma putChild_putChild (t : Tree) (s : Segment) (v v' : Tree) :
    (t.putChild s v).putChild s v' = t.putChild s v' := by
  cases t with
  | array items =>
    rw [putChild, putChild]
    cases hi : s.index? with
    | none => simp only [putChild, hi]
    | some i => simp only [putChild, hi, List.set_set]
  | map fields => exact congrArg Tree.map (Entries.replace_replace fields s.key v v')
  | null | bool | number | text => rfl

/-- Of two nodes put at a location one after another the second stays. -/
lemma putAt_putAt {t u : Tree} {p : List Segment} (hu : t.at? p = some u) (v v' : Tree) :
    (t.putAt p v).putAt p v' = t.putAt p v' := by
  induction p generalizing t with
  | nil => rfl
  | cons s rest ih =>
    obtain ⟨c, hc, hrest⟩ := at?_cons_eq_some_iff.mp hu
    rw [putAt_cons hc, putAt_cons (child?_putChild_self hc _), putChild_putChild, ih hrest,
      putAt_cons hc]

/-! ### Containers that can be written into -/

/-- A segment can be written into a node: the node is a container, and an array takes indexes only. -/
def Admits (t : Tree) (s : Segment) : Prop :=
  t.isContainer = true ∧ (t.kind = .array → s.isIndex = true)

/-- Every node on the way to a location, the location itself apart, can be written into at the segment
that follows. -/
def WritableAt (t : Tree) (p : List Segment) : Prop :=
  ∀ w s u, w ++ [s] <+: p → t.at? w = some u → u.Admits s

/-- The root of any tree may be written. -/
lemma writableAt_nil (t : Tree) : t.WritableAt [] := fun _ _ _ h _ =>
  absurd (List.prefix_nil.mp h) (by simp)

/-- A location may be written if the node admits its first segment and the child there may be written. -/
lemma writableAt_cons_iff {t : Tree} {s : Segment} {rest : List Segment} :
    t.WritableAt (s :: rest) ↔ t.Admits s ∧ ∀ c, t.child? s = some c → c.WritableAt rest := by
  constructor
  · refine fun h => ⟨h [] s t ⟨rest, rfl⟩ rfl, fun c hc w s' u hpre hu => ?_⟩
    exact h (s :: w) s' u (List.cons_prefix_cons.mpr ⟨rfl, hpre⟩)
      (at?_cons_eq_some_iff.mpr ⟨c, hc, hu⟩)
  · rintro ⟨hself, hbelow⟩ w s' u hpre hu
    cases w with
    | nil =>
      rw [(List.cons_prefix_cons.mp hpre).1, ← Option.some.inj hu]
      exact hself
    | cons x w =>
      obtain ⟨rfl, hpre'⟩ := List.cons_prefix_cons.mp hpre
      obtain ⟨c, hc, hu'⟩ := at?_cons_eq_some_iff.mp hu
      exact hbelow c hc w s' u hpre' hu'

/-- What has a child under a segment admits the segment. -/
lemma admits_of_child? {t c : Tree} {s : Segment} (hc : t.child? s = some c) : t.Admits s := by
  cases t with
  | array items =>
    obtain ⟨i, hi, -⟩ := Option.bind_eq_some_iff.mp hc
    exact ⟨rfl, fun _ => by rw [Segment.isIndex, hi, Option.isSome_some]⟩
  | map fields => exact ⟨rfl, fun h => absurd h (by simp [kind])⟩
  | null | bool | number | text => exact absurd hc (by simp [child?])

/-- A container created for a segment admits it. -/
lemma admits_freshFor (s : Segment) : (freshFor s).Admits s := by
  refine ⟨isContainer_freshFor s, fun h => ?_⟩
  unfold freshFor at h
  cases hs : s.isIndex with
  | true => rfl
  | false =>
    rw [hs, if_neg Bool.false_ne_true] at h
    exact absurd h (by simp [kind])

/-- A container just created is empty. -/
lemma child?_freshFor (s s' : Segment) : (freshFor s).child? s' = none := by
  unfold freshFor
  cases s.isIndex with
  | true =>
    rw [if_pos rfl, child?]
    cases s'.index? <;> rfl
  | false => rfl

/-- The item placed at an index stands there. -/
lemma getElem?_placeItem (items : List Tree) (i : ℕ) (v : Tree) :
    (placeItem items i v)[i]? = some v := by
  unfold placeItem
  split
  · next hlt => exact List.getElem?_set_self hlt
  · next hge =>
    have hlen : (items ++ List.replicate (i - items.length) Tree.null).length = i := by
      rw [List.length_append, List.length_replicate]
      omega
    rw [List.getElem?_append_right hlen.le, hlen, Nat.sub_self]
    rfl

/-- A segment that a node admits can be written, and what is written is the child that it names. -/
lemma place_of_admits {t : Tree} {s : Segment} (h : t.Admits s) (v : Tree) :
    ∃ t', t.place s v = .ok t' ∧ t'.child? s = some v := by
  cases t with
  | array items =>
    obtain ⟨i, hi⟩ := Option.isSome_iff_exists.mp (h.2 rfl)
    refine ⟨.array (placeItem items i v), by rw [place, hi], ?_⟩
    rw [child?, hi, Option.bind_some]
    exact getElem?_placeItem items i v
  | map fields => exact ⟨_, rfl, Entries.get?_insert_self fields s.key v⟩
  | null | bool | number | text => exact absurd h.1 (by simp [isContainer, kind, Kind.isContainer])

/-- A segment that a node does not admit cannot be written. -/
lemma place_of_not_admits {t : Tree} {s : Segment} (h : ¬ t.Admits s) (v : Tree) :
    ∃ o, t.place s v = .error o := by
  cases t with
  | array items =>
    have hs : s.index? = none := by
      cases hi : s.index? with
      | none => rfl
      | some i => exact absurd ⟨rfl, fun _ => by rw [Segment.isIndex, hi, Option.isSome_some]⟩ h
    exact ⟨.notIndex s, by rw [place, hs]⟩
  | map fields => exact absurd ⟨rfl, fun hk => absurd hk (by simp [kind])⟩ h
  | null | bool | number | text => exact ⟨.writeIntoValue s, rfl⟩

/-- Making sure of a child that is there changes nothing. -/
lemma ensureChild_of_child? {t c : Tree} {s : Segment} (hc : t.child? s = some c) (v : Tree) :
    t.ensureChild s v = .ok t := by
  rw [ensureChild, hc, Option.isSome_some, if_pos rfl]

/-- Making sure of a child that is absent places it. -/
lemma ensureChild_of_absent {t : Tree} {s : Segment} (hc : t.child? s = none) (v : Tree) :
    t.ensureChild s v = t.place s v := by
  rw [ensureChild, hc, Option.isSome_none, if_neg Bool.false_ne_true]

/-- Making sure of a child finds it there, or creates it, or fails because the segment cannot be written. -/
lemma ensureChild_cases (t : Tree) (s : Segment) (v : Tree) :
    (∃ c, t.child? s = some c ∧ t.ensureChild s v = .ok t) ∨
    (t.Admits s ∧ t.child? s = none ∧
      ∃ t', t.place s v = .ok t' ∧ t.ensureChild s v = .ok t' ∧ t'.child? s = some v) ∨
    (¬ t.Admits s ∧ ∃ o, t.ensureChild s v = .error o) := by
  cases hc : t.child? s with
  | some c => exact .inl ⟨c, rfl, ensureChild_of_child? hc v⟩
  | none =>
    rw [ensureChild_of_absent hc]
    by_cases hs : t.Admits s
    · obtain ⟨t', hplace, hchild⟩ := place_of_admits hs v
      exact .inr (.inl ⟨hs, rfl, t', hplace, hplace, hchild⟩)
    · exact .inr (.inr ⟨hs, place_of_not_admits hs v⟩)

/-- A node that is made sure of is there. -/
lemma child?_ensureChild {t t' v : Tree} {s : Segment} (h : t.ensureChild s v = .ok t') :
    t'.child? s = some ((t.child? s).getD v) := by
  rcases ensureChild_cases t s v with ⟨c, hc, hensure⟩ | ⟨-, hc, t'', -, hensure, hchild⟩ |
    ⟨-, o, hensure⟩
  · rw [← Except.ok.inj (hensure.symm.trans h), hc, Option.getD_some]
  · rw [← Except.ok.inj (hensure.symm.trans h), hc, Option.getD_none, hchild]
  · exact absurd (hensure.symm.trans h) (by simp)

/-! ### The walk to the container of a location -/

section Walk

variable {change : Segment → Tree → Outcome Obstacle}

/-- What a step of the walk can do. -/
theorem atParent_cons_cases (change : Segment → Tree → Outcome Obstacle) (s next : Segment)
    (rest : List Segment) (t : Tree) :
    (∃ o, atParent change (s :: next :: rest) t = .fail o t ∧
      (t.Admits s → ∃ c, t.child? s = some c ∧ c.isContainer = false))
    ∨ (∃ c, t.child? s = some c ∧ atParent change (s :: next :: rest) t
        = (atParent change (next :: rest) c).within t [s])
    ∨ (t.Admits s ∧ t.child? s = none ∧ ∃ t', t.place s (freshFor next) = .ok t' ∧
        t'.child? s = some (freshFor next) ∧ atParent change (s :: next :: rest) t
          = (atParent change (next :: rest) (freshFor next)).within t' [s]) := by
  rcases ensureChild_cases t s (freshFor next) with ⟨c, hc, hensure⟩ |
    ⟨hs, hnone, t', hplace, hensure, hchild⟩ | ⟨hs, o, hensure⟩
  · cases hcont : c.isContainer with
    | true =>
      refine .inr (.inl ⟨c, hc, ?_⟩)
      rw [atParent, hensure]
      simp only [hc, hcont, if_true]
    | false =>
      refine .inl ⟨.notContainer s, ?_, fun _ => ⟨c, hc, hcont⟩⟩
      rw [atParent, hensure]
      simp only [hc, hcont, Bool.false_eq_true, if_false]
  · refine .inr (.inr ⟨hs, hnone, t', hplace, hchild, ?_⟩)
    rw [atParent, hensure]
    simp only [hchild, isContainer_freshFor, if_true]
  · refine .inl ⟨o, ?_, fun h => absurd h hs⟩
    rw [atParent, hensure]

/-- A change of the last container that leaves it alone when it fails, and does not fail where the segment
is free. -/
structure Opens (change : Segment → Tree → Outcome Obstacle) : Prop where
  spares : ∀ s t, (change s t).Spares t
  vacant : ∀ s t, t.Admits s → t.child? s = none → (change s t).error = none

/-- Nothing fails from the first missing node on. -/
theorem Opens.atParent_of_vacant (h : Opens change) {s : Segment} (rest : List Segment) {t : Tree}
    (hs : t.Admits s) (hnone : t.child? s = none) :
    (atParent change (s :: rest) t).error = none := by
  induction rest generalizing s t with
  | nil => exact h.vacant s t hs hnone
  | cons next rest ih =>
    rcases atParent_cons_cases change s next rest t with ⟨o, -, hblame⟩ | ⟨c, hc, -⟩ |
      ⟨-, -, t', -, -, hgo⟩
    · obtain ⟨c, hc, -⟩ := hblame hs
      exact absurd (hnone.symm.trans hc) (by simp)
    · exact absurd (hnone.symm.trans hc) (by simp)
    · rw [hgo]
      exact ih (admits_freshFor next) (child?_freshFor next next)

/-- A walk succeeds if every node on the way that is there can be written into, and if the node at the
location, where there is one, is good for the change of the last container. -/
theorem Opens.atParent_error_eq_none_iff (h : Opens change) {good : Tree → Prop}
    (hgood : ∀ s t, (change s t).error = none ↔ t.Admits s ∧ ∀ c, t.child? s = some c → good c)
    {p : List Segment} (hp : p ≠ []) (t : Tree) : (atParent change p t).error = none ↔
      t.WritableAt p ∧ ∀ u, t.at? p = some u → good u := by
  induction p generalizing t with
  | nil => exact absurd rfl hp
  | cons s rest ih =>
    rw [writableAt_cons_iff]
    cases rest with
    | nil =>
      rw [atParent, hgood, at?_singleton, and_iff_left fun c _ => writableAt_nil c]
    | cons next rest =>
      rcases atParent_cons_cases change s next rest t with ⟨o, hfail, hblame⟩ |
        ⟨c, hc, hgo⟩ | ⟨hs, hnone, t', -, hchild, hgo⟩
      · rw [hfail]
        refine iff_of_false (by simp [Outcome.fail]) fun ⟨⟨hs, hbelow⟩, _⟩ => ?_
        obtain ⟨c, hc, hvalue⟩ := hblame hs
        have hadmits : c.Admits next := (writableAt_cons_iff.mp (hbelow c hc)).1
        exact absurd (hadmits.1.symm.trans hvalue) (by simp)
      · rw [hgo, at?_cons, hc, Option.bind_some]
        refine (ih (List.cons_ne_nil next rest) c).trans (and_congr_left' ?_)
        simp [admits_of_child? hc]
      · rw [hgo, at?_cons, hnone, Option.bind_none]
        refine iff_of_true ?_ ⟨⟨hs, by simp⟩, by simp⟩
        exact h.atParent_of_vacant rest (admits_freshFor next) (child?_freshFor next next)

/-- A walk that fails has changed nothing. -/
theorem Opens.spares_atParent (h : Opens change) (p : List Segment) (t : Tree) :
    (atParent change p t).Spares t := by
  induction p generalizing t with
  | nil => exact Outcome.spares_ok t t
  | cons s rest ih =>
    cases rest with
    | nil => exact h.spares s t
    | cons next rest =>
      rcases atParent_cons_cases change s next rest t with ⟨o, hfail, -⟩ | ⟨c, hc, hgo⟩ |
        ⟨hs, hnone, -⟩
      · rw [hfail]
        exact Outcome.spares_fail o t
      · intro e he
        rw [hgo] at he ⊢
        have hsame : (atParent change (next :: rest) c).tree = c := ih c e he
        rw [Outcome.within, hsame]
        exact putAt_self (at?_cons_eq_some_iff.mpr ⟨c, hc, rfl⟩)
      · exact Outcome.spares_of_error_eq_none (h.atParent_of_vacant (next :: rest) hs hnone) t

/-- What a change leaves of a child is found below the segment of the child. -/
lemma at?_within_cons {ε : Type} {t c : Tree} {s : Segment} (hc : t.child? s = some c) (o : Outcome ε)
    (q : List Segment) : (o.within t [s]).tree.at? (s :: q) = o.tree.at? q := by
  rw [Outcome.within, putAt_cons hc, at?_cons, child?_putChild_self hc, Option.bind_some, putAt]

/-- A walk that succeeds ends with the change of a container.  What the location holds, before the walk and
after it, is the child of that container. -/
theorem exists_change_of_atParent {p : List Segment} (hp : p ≠ []) {t : Tree}
    (h : (atParent change p t).error = none) :
    ∃ s parent, (change s parent).error = none ∧ t.at? p = parent.child? s ∧
      (atParent change p t).tree.at? p = (change s parent).tree.child? s := by
  induction p generalizing t with
  | nil => exact absurd rfl hp
  | cons s rest ih =>
    cases rest with
    | nil => exact ⟨s, t, h, at?_singleton t s, at?_singleton _ s⟩
    | cons next rest =>
      rcases atParent_cons_cases change s next rest t with ⟨o, hfail, -⟩ | ⟨c, hc, hgo⟩ |
        ⟨-, hnone, t', -, hchild, hgo⟩
      · rw [hfail] at h
        exact absurd h (by simp [Outcome.fail])
      · rw [hgo] at h ⊢
        obtain ⟨s', parent, hok, hbefore, hafter⟩ := ih (by simp) h
        refine ⟨s', parent, hok, ?_, (at?_within_cons hc _ _).trans hafter⟩
        rw [at?_cons, hc, Option.bind_some, hbefore]
      · rw [hgo] at h ⊢
        obtain ⟨s', parent, hok, hbefore, hafter⟩ := ih (by simp) h
        refine ⟨s', parent, hok, ?_, (at?_within_cons hchild _ _).trans hafter⟩
        rw [at?_cons, hnone, Option.bind_none, ← hbefore, at?_cons, child?_freshFor, Option.bind_none]

end Walk

/-! ### The three changes of the last container -/

/-- Writing a child of a container succeeds if the container admits the segment. -/
lemma setChild_error_eq_none_iff (v : Tree) (s : Segment) (t : Tree) :
    (setChild v s t).error = none ↔ t.Admits s := by
  unfold setChild
  by_cases hs : t.Admits s
  · obtain ⟨t', hplace, -⟩ := place_of_admits hs v
    rw [hplace]
    exact iff_of_true rfl hs
  · obtain ⟨o, hplace⟩ := place_of_not_admits hs v
    rw [hplace]
    exact iff_of_false (by simp [Outcome.ofExcept, Outcome.fail]) hs

/-- The child that has been set is found. -/
lemma child?_setChild {v : Tree} {s : Segment} {t : Tree} (h : t.Admits s) :
    (setChild v s t).tree.child? s = some v := by
  obtain ⟨t', hplace, hchild⟩ := place_of_admits h v
  rw [setChild, hplace]
  exact hchild

/-- What opening a child can do: fail at a value or at a segment that cannot be written, or make sure of a
child. -/
theorem openChild_cases (s : Segment) (t : Tree) :
    (∃ o, openChild s t = .fail o t ∧
      (t.Admits s → ∃ c, t.child? s = some c ∧ c.isContainer = false)) ∨
    ∃ t', openChild s t = .ok t' ∧ t.ensureChild s (.map []) = .ok t' ∧ t.Admits s ∧
      ∀ c, t.child? s = some c → c.isContainer = true := by
  rcases ensureChild_cases t s (.map []) with ⟨c, hc, hensure⟩ |
    ⟨hs, hnone, t', -, hensure, hchild⟩ | ⟨hs, o, hensure⟩
  · have hopen : openChild s t
        = if c.isContainer then .ok t else .fail .locationHoldsValue t := by
      rw [openChild, hensure]
      simp only [hc]
    cases hcont : c.isContainer with
    | true =>
      rw [hopen, hcont, if_pos rfl]
      refine .inr ⟨t, rfl, hensure, admits_of_child? hc, fun c' hc' => ?_⟩
      rwa [← Option.some.inj (hc.symm.trans hc')]
    | false =>
      rw [hopen, hcont, if_neg Bool.false_ne_true]
      exact .inl ⟨_, rfl, fun _ => ⟨c, hc, hcont⟩⟩
  · refine .inr ⟨t', ?_, hensure, hs, fun c hc => absurd (hnone.symm.trans hc) (by simp)⟩
    rw [openChild, hensure]
    simp only [hchild]
    rfl
  · refine .inl ⟨o, ?_, fun h => absurd h hs⟩
    rw [openChild, hensure]

/-- What adding to a child can do: fail at a node other than an array or at a segment that cannot be written,
or put the element behind those of the array that it has made sure of. -/
theorem addToChild_cases (v : Tree) (s : Segment) (t : Tree) :
    (∃ o, addToChild v s t = .fail o t ∧
      (t.Admits s → ∃ c, t.child? s = some c ∧ c.kind ≠ .array)) ∨
    ∃ t' items, addToChild v s t = .ok (t'.putChild s (.array (items ++ [v]))) ∧
      t.ensureChild s (.array []) = .ok t' ∧ t.Admits s ∧
      (t.child? s).getD (.array []) = .array items := by
  rcases ensureChild_cases t s (.array []) with ⟨c, hc, hensure⟩ |
    ⟨hs, hnone, t', -, hensure, hchild⟩ | ⟨hs, o, hensure⟩
  · cases c with
    | array items =>
      refine .inr ⟨t, items, ?_, hensure, admits_of_child? hc, by rw [hc, Option.getD_some]⟩
      rw [addToChild, hensure]
      simp only [hc]
      rfl
    | map fields =>
      refine .inl ⟨.cannotAddTo .map, ?_, fun _ => ⟨_, hc, by simp [kind]⟩⟩
      rw [addToChild, hensure]
      simp only [hc]
      rfl
    | null | bool | number | text =>
      refine .inl ⟨.cannotAddTo .value, ?_, fun _ => ⟨_, hc, by simp [kind]⟩⟩
      rw [addToChild, hensure]
      simp only [hc]
      rfl
  · refine .inr ⟨t', [], ?_, hensure, hs, by rw [hnone, Option.getD_none]⟩
    rw [addToChild, hensure]
    simp only [hchild]
    rfl
  · refine .inl ⟨o, ?_, fun h => absurd h hs⟩
    rw [addToChild, hensure]

/-- The container that has been opened is there, and is empty if nothing was there before. -/
lemma child?_openChild {s : Segment} {t : Tree} (h : (openChild s t).error = none) :
    (openChild s t).tree.child? s = some ((t.child? s).getD (.map [])) := by
  rcases openChild_cases s t with ⟨o, hfail, -⟩ | ⟨t', hok, hensure, -⟩
  · rw [hfail] at h
    exact absurd h (by simp [Outcome.fail])
  · rw [hok]
    exact child?_ensureChild hensure

/-- The array that has been added to ends with the new element. -/
lemma child?_addToChild {v : Tree} {s : Segment} {t : Tree} (h : (addToChild v s t).error = none) :
    ∃ items, (t.child? s).getD (.array []) = .array items ∧
      (addToChild v s t).tree.child? s = some (.array (items ++ [v])) := by
  rcases addToChild_cases v s t with ⟨o, hfail, -⟩ | ⟨t', items, hok, hensure, -, hitems⟩
  · rw [hfail] at h
    exact absurd h (by simp [Outcome.fail])
  · rw [hok]
    exact ⟨items, hitems, child?_putChild_self (child?_ensureChild hensure) _⟩

/-- Opening a child succeeds where a child can be written, unless a value is there. -/
lemma openChild_error_eq_none_iff (s : Segment) (t : Tree) : (openChild s t).error = none ↔
    t.Admits s ∧ ∀ c, t.child? s = some c → c.isContainer = true := by
  rcases openChild_cases s t with ⟨o, hfail, hblame⟩ | ⟨t', hok, -, hs, hcont⟩
  · rw [hfail]
    refine iff_of_false (by simp [Outcome.fail]) fun ⟨hs, hcont⟩ => ?_
    obtain ⟨c, hc, hvalue⟩ := hblame hs
    exact absurd ((hcont c hc).symm.trans hvalue) (by simp)
  · rw [hok]
    exact iff_of_true rfl ⟨hs, hcont⟩

/-- Adding to a child succeeds where a child can be written, unless something other than an array is
there. -/
lemma addToChild_error_eq_none_iff (v : Tree) (s : Segment) (t : Tree) :
    (addToChild v s t).error = none ↔
      t.Admits s ∧ ∀ c, t.child? s = some c → c.kind = .array := by
  rcases addToChild_cases v s t with ⟨o, hfail, hblame⟩ | ⟨t', items, hok, -, hs, hitems⟩
  · rw [hfail]
    refine iff_of_false (by simp [Outcome.fail]) fun ⟨hs, harray⟩ => ?_
    obtain ⟨c, hc, hother⟩ := hblame hs
    exact hother (harray c hc)
  · rw [hok]
    refine iff_of_true rfl ⟨hs, fun c hc => ?_⟩
    rw [hc, Option.getD_some] at hitems
    rw [hitems, kind]

/-- Setting a child is a change of the last container. -/
lemma opens_setChild (v : Tree) : Opens (setChild v) where
  spares _ t := Outcome.spares_ofExcept t _
  vacant s t hs _ := (setChild_error_eq_none_iff v s t).mpr hs

/-- Opening a child is a change of the last container. -/
lemma opens_openChild : Opens openChild where
  spares s t := by
    rcases openChild_cases s t with ⟨o, hfail, -⟩ | ⟨t', hok, -⟩
    · exact hfail ▸ Outcome.spares_fail o t
    · exact hok ▸ Outcome.spares_ok t t'
  vacant s t hs hnone := by simp [openChild_error_eq_none_iff, hs, hnone]

/-- Adding to a child is a change of the last container. -/
lemma opens_addToChild (v : Tree) : Opens (addToChild v) where
  spares s t := by
    rcases addToChild_cases v s t with ⟨o, hfail, -⟩ | ⟨t', items, hok, -⟩
    · exact hfail ▸ Outcome.spares_fail o t
    · exact hok ▸ Outcome.spares_ok t _
  vacant s t hs hnone := by simp [addToChild_error_eq_none_iff, hs, hnone]

/-! ### Writing a node -/

/-- A node can be written at a location if every node on the way that is there can be written into. -/
theorem atParent_setChild_error_eq_none_iff (v : Tree) (p : List Segment) (t : Tree) :
    (atParent (setChild v) p t).error = none ↔ t.WritableAt p := by
  rcases eq_or_ne p [] with rfl | hp
  · exact iff_of_true rfl (writableAt_nil t)
  · have hgood : ∀ s t, (setChild v s t).error = none ↔ t.Admits s ∧ ∀ c, t.child? s = some c → True :=
      fun s t => by simp [setChild_error_eq_none_iff]
    rw [(opens_setChild v).atParent_error_eq_none_iff hgood hp]
    simp

/-- A node that has been written is read back. -/
theorem at?_atParent_setChild {v : Tree} {p : List Segment} (hp : p ≠ []) {t : Tree}
    (h : (atParent (setChild v) p t).error = none) :
    (atParent (setChild v) p t).tree.at? p = some v := by
  obtain ⟨s, parent, hok, -, hafter⟩ := exists_change_of_atParent hp h
  rw [hafter]
  exact child?_setChild ((setChild_error_eq_none_iff v s parent).mp hok)

end Tree

namespace Pointer

/-- A pointer without segments leads to the root. -/
lemma isRoot_eq_true_iff {p : Pointer} : p.isRoot = true ↔ p.segments = [] := List.isEmpty_iff

/-- A pointer that does not lead to the root has segments. -/
lemma ne_nil_of_isRoot_eq_false {p : Pointer} (h : p.isRoot = false) : p.segments ≠ [] := fun hnil =>
  absurd ((isRoot_eq_true_iff.mpr hnil).symm.trans h) (by simp)

/-- A value that has been written is there. -/
theorem at?_set {p : Pointer} {v t : Tree} (h : (p.set v t).error = none) :
    p.at? (p.set v t).tree = some v := by
  unfold set at h ⊢
  cases hroot : p.isRoot with
  | true =>
    rw [if_pos rfl, at?, isRoot_eq_true_iff.mp hroot]
    rfl
  | false =>
    rw [hroot, if_neg Bool.false_ne_true, Outcome.mapError, Option.map_eq_none_iff] at h
    rw [if_neg Bool.false_ne_true]
    exact Tree.at?_atParent_setChild (ne_nil_of_isRoot_eq_false hroot) h

/-- A value that has been appended follows the elements that were there before, if any. -/
theorem at?_add {p : Pointer} {v t : Tree} (h : (p.add v t).error = none) :
    ∃ items, (p.at? t).getD (.array []) = .array items ∧
      p.at? (p.add v t).tree = some (.array (items ++ [v])) := by
  unfold add at h ⊢
  cases hroot : p.isRoot with
  | true =>
    rw [hroot, if_pos rfl] at h
    rw [at?, at?, isRoot_eq_true_iff.mp hroot, if_pos rfl]
    cases t with
    | array items => exact ⟨items, rfl, rfl⟩
    | map | null | bool | number | text => exact absurd h (by simp [Tree.kind, Outcome.fail])
  | false =>
    rw [hroot, if_neg Bool.false_ne_true, Outcome.mapError, Option.map_eq_none_iff] at h
    obtain ⟨s, parent, hok, hbefore, hafter⟩ :=
      Tree.exists_change_of_atParent (ne_nil_of_isRoot_eq_false hroot) h
    obtain ⟨items, hitems, hadded⟩ := Tree.child?_addToChild hok
    rw [if_neg Bool.false_ne_true, at?, hbefore]
    exact ⟨items, hitems, hafter.trans hadded⟩

/-- A container that has been opened is there, and is empty if nothing was there before. -/
theorem at?_openContainer {p : Pointer} {t : Tree} (h : (p.openContainer t).error = none) :
    p.at? (p.openContainer t).tree = some ((p.at? t).getD (.map [])) := by
  unfold openContainer at h ⊢
  cases hroot : p.isRoot with
  | true =>
    rw [at?, at?, isRoot_eq_true_iff.mp hroot, if_pos rfl]
    split <;> rfl
  | false =>
    rw [hroot, if_neg Bool.false_ne_true, Outcome.mapError, Option.map_eq_none_iff] at h
    obtain ⟨s, parent, hok, hbefore, hafter⟩ :=
      Tree.exists_change_of_atParent (ne_nil_of_isRoot_eq_false hroot) h
    rw [if_neg Bool.false_ne_true, at?, at?, hbefore]
    exact hafter.trans (Tree.child?_openChild hok)

/-- A container that has been opened is found. -/
lemma exists_openContainer {p : Pointer} {t : Tree} (h : (p.openContainer t).error = none) :
    ∃ node, p.at? (p.openContainer t).tree = some node := ⟨_, at?_openContainer h⟩

/-- What has been written is read back.  A write succeeds exactly at the root and where every proper
ancestor of the location that the tree has is a container, and the next segment an index if it is an
array; so a write that fails does so at a node that the tree had before. -/
theorem at?_set_and_ok_iff (p : Pointer) (v t : Tree) :
    ((p.set v t).error = none → p.at? (p.set v t).tree = some v) ∧
    ((p.set v t).error = none ↔ p.isRoot = true ∨
      ∀ w s u, w ++ [s] <+: p.segments → t.at? w = some u →
        u.isContainer = true ∧ (u.kind = .array → s.isIndex = true)) ∧
    (∀ e, (p.set v t).error = some e → ∃ w s u, w ++ [s] <+: p.segments ∧ t.at? w = some u ∧
      (u.isContainer = false ∨ u.kind = .array ∧ s.isIndex = false)) := by
  have hiff : (p.set v t).error = none ↔ p.isRoot = true ∨ t.WritableAt p.segments := by
    unfold set
    cases hroot : p.isRoot with
    | true => exact iff_of_true rfl (.inl rfl)
    | false =>
      rw [if_neg Bool.false_ne_true, Outcome.mapError, Option.map_eq_none_iff,
        Tree.atParent_setChild_error_eq_none_iff]
      simp
  refine ⟨fun hok => ?_, hiff, fun e he => ?_⟩
  · unfold set at hok ⊢
    cases hroot : p.isRoot with
    | true =>
      rw [if_pos rfl, at?, isRoot_eq_true_iff.mp hroot]
      rfl
    | false =>
      rw [hroot, if_neg Bool.false_ne_true, Outcome.mapError, Option.map_eq_none_iff] at hok
      rw [if_neg Bool.false_ne_true]
      refine Tree.at?_atParent_setChild (fun hnil => ?_) hok
      rw [isRoot_eq_true_iff.mpr hnil] at hroot
      exact absurd hroot (by simp)
  · have hnot : ¬ t.WritableAt p.segments := fun h =>
      absurd ((hiff.mpr (.inr h)).symm.trans he) (by simp)
    unfold Tree.WritableAt Tree.Admits at hnot
    push Not at hnot
    obtain ⟨w, s, u, hpre, hu, hblame⟩ := hnot
    refine ⟨w, s, u, hpre, hu, ?_⟩
    cases hcont : u.isContainer with
    | false => exact .inl rfl
    | true => exact .inr ((hblame hcont).imp id fun h => Bool.not_eq_true _ ▸ h)

end Pointer

end DocumentPath
