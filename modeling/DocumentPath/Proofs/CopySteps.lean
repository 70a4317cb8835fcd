import Mathlib
import DocumentPath.Proofs.Matches
import DocumentPath.Selector.Change

/-!
# The steps of a copy

What a copy does at each container on its way.  `Tree.copyOver` is `Tree.copyInto` with the end of the
path taken in: with no segments left the copied node takes the place of what stands there, so that every
step is of one form.  `Tree.copyOver_cons_cases` lists what a step can do: fail and change nothing, go on
below a field, go on below an element that is reused, or go on below a new element.

From these cases follows which entries of the placement a copy may change
(`get?_copyOver_off_path`, `get?_copyOver_of_some`) and how far the outcome depends on the placement
(`copyOver_congr`).
-/

namespace DocumentPath

namespace Entries

variable {κ α : Type*} [DecidableEq κ]

/-- Replacing a value that was just inserted inserts the other value. -/
lemma replace_insert_self (es : Entries κ α) (k : κ) (v v' : α) :
    replace (insert es k v) k v' = insert es k v' := by
  induction es with
  | nil => simp [insert, replace]
  | cons e rest ih =>
    obtain ⟨k', v₀⟩ := e
    by_cases hk : k' = k
    · simp [insert, replace, hk]
    · simp [insert, replace, hk, ih]

/-- Inserting under a key that is present replaces its value. -/
lemma replace_eq_insert {es : Entries κ α} {k : κ} {v : α} (h : get? es k = some v) (v' : α) :
    replace es k v' = insert es k v' := by
  induction es with
  | nil => simp at h
  | cons e rest ih =>
    obtain ⟨k', v₀⟩ := e
    by_cases hk : k' = k
    · simp [insert, replace, hk]
    · rw [get?, if_neg hk] at h
      simp [insert, replace, hk, ih h]

/-- The keys after an insertion are those before and the one inserted. -/
lemma map_fst_insert (es : Entries κ α) (k : κ) (v : α) : (insert es k v).map Prod.fst
    = if k ∈ es.map Prod.fst then es.map Prod.fst else es.map Prod.fst ++ [k] := by
  induction es with
  | nil => simp [insert]
  | cons e rest ih =>
    obtain ⟨k', v'⟩ := e
    by_cases hk : k' = k
    · simp [insert, hk]
    · by_cases hmem : k ∈ rest.map Prod.fst
      · rw [if_pos hmem] at ih
        simp only [insert, if_neg hk, List.map_cons, ih]
        rw [if_pos (List.mem_cons_of_mem _ hmem)]
      · rw [if_neg hmem] at ih
        simp only [insert, if_neg hk, List.map_cons, ih]
        rw [if_neg (by simp only [List.mem_cons, not_or]; exact ⟨Ne.symm hk, hmem⟩),
          List.cons_append]

/-- An entry after an insertion is the inserted one or was there before. -/
lemma mem_insert {es : Entries κ α} {k : κ} {v : α} {e : κ × α} (h : e ∈ insert es k v) :
    e = (k, v) ∨ e ∈ es := by
  induction es with
  | nil => exact .inl (List.mem_singleton.mp h)
  | cons f rest ih =>
    obtain ⟨k', v'⟩ := f
    unfold insert at h
    split at h
    · next hk =>
      rcases List.mem_cons.mp h with heq | hmem
      · exact .inl (hk ▸ heq)
      · exact .inr (List.mem_cons_of_mem _ hmem)
    · rcases List.mem_cons.mp h with heq | hmem
      · exact .inr (heq ▸ List.mem_cons_self)
      · exact (ih hmem).imp id (List.mem_cons_of_mem _)

/-- Insertion keeps the keys distinct. -/
lemma distinct_insert {es : Entries κ α} (h : Distinct es) (k : κ) (v : α) :
    Distinct (insert es k v) := by
  unfold Distinct
  rw [map_fst_insert]
  split
  · exact h
  · next hk => exact List.nodup_append.mpr ⟨h, List.nodup_singleton k, by
      intro a ha b hb heq
      rw [List.mem_singleton.mp hb] at heq
      exact hk (heq ▸ ha)⟩

/-- The entries with further entries inserted one after another. -/
def insertAll (es fs : Entries κ α) : Entries κ α := fs.foldl (fun es f => insert es f.1 f.2) es

/-- Insertions keep the keys distinct. -/
lemma distinct_insertAll {es : Entries κ α} (h : Distinct es) (fs : Entries κ α) :
    Distinct (insertAll es fs) := by
  induction fs generalizing es with
  | nil => exact h
  | cons f rest ih => exact ih (distinct_insert h f.1 f.2)

/-- After insertions the inserted value is read under a key, or else the value from before. -/
lemma get?_insertAll {fs : Entries κ α} (hfs : Distinct fs) (es : Entries κ α) (k : κ) :
    get? (insertAll es fs) k = (get? fs k).or (get? es k) := by
  induction fs generalizing es with
  | nil => rfl
  | cons f rest ih =>
    obtain ⟨k', v⟩ := f
    have hfs' : k' ∉ rest.map Prod.fst ∧ Distinct rest := List.nodup_cons.mp hfs
    change get? (insertAll (insert es k' v) rest) k = _
    rw [ih hfs'.2]
    by_cases hk : k' = k
    · subst hk
      rw [get?_eq_none_iff.mpr hfs'.1, get?_insert_self]
      simp [get?]
    · rw [get?_insert_of_ne es hk]
      simp [get?, hk]

end Entries

namespace Placement

@[simp] lemma get?_empty (e : List Segment) : empty.get? e = none := rfl

/-- The first record of an element stands. -/
lemma get?_record_self (pl : Placement) (e : List Segment) (i : ℕ) :
    (pl.record e i).get? e = some ((pl.get? e).getD i) := by
  unfold record
  cases h : pl.get? e with
  | none => exact Entries.get?_insert_self _ _ _
  | some j => exact h

/-- Recording an element leaves the other elements where they are. -/
lemma get?_record_of_ne (pl : Placement) {e e' : List Segment} (h : e ≠ e') (i : ℕ) :
    (pl.record e i).get? e' = pl.get? e' := by
  unfold record
  cases pl.get? e with
  | none => exact Entries.get?_insert_of_ne _ h _
  | some j => rfl

/-- An element that has been placed stays where it is. -/
lemma get?_record_of_some {pl : Placement} {e : List Segment} {j : ℕ} (h : pl.get? e = some j)
    (e' : List Segment) (i : ℕ) : (pl.record e' i).get? e = some j := by
  by_cases he : e' = e
  · rw [he, get?_record_self, h, Option.getD_some]
  · rw [get?_record_of_ne pl he, h]

/-- Every element that has been placed below `w` lies on the way to a location in `S`. -/
def Recorded (pl : Placement) (w : List Segment) (S : Set (List Segment)) : Prop :=
  ∀ e k, e ≠ [] → pl.get? (w ++ e) = some k → ∃ h ∈ S, e <+: h

end Placement

namespace Tree

/-! ### One step -/

/-- Whether a copy that goes on along `rest` can go on below a node; at its end any node will do. -/
def ready (rest : List Segment) (c : Tree) : Bool := rest.isEmpty || c.isContainer

/-- What a copy that goes on along `rest` puts where there is nothing to go on from. -/
def freshAlong : List Segment → Tree
  | [] => .null
  | next :: _ => freshFor next

/-- The index of the element of an array that a copy reuses for a source element. -/
def seat? (pl : Placement) (source : List Segment) (s : Segment) (rest : List Segment)
    (items : List Tree) : Option ℕ :=
  slot? pl source s fun i => (items[i]?.map (ready rest)).getD false

/-- Copies `v` over the node that a list of segments leads to, those before them having been `walked`. -/
def copyOver (v : Tree) (walked : List Segment) :
    List Segment → Placement → Tree → Outcome Obstacle × Placement
  | [], pl, _ => (.ok v, pl)
  | s :: rest, pl, t => copyInto v walked (s :: rest) pl t

@[simp] lemma copyOver_nil (v : Tree) (w : List Segment) (pl : Placement) (t : Tree) :
    copyOver v w [] pl t = (.ok v, pl) := rfl

/-- Away from the root a copy is the same with its end taken in. -/
lemma copyInto_eq_copyOver (v : Tree) (w : List Segment) {p : List Segment} (hp : p ≠ [])
    (pl : Placement) (t : Tree) : copyInto v w p pl t = copyOver v w p pl t := by
  cases p with
  | nil => exact absurd rfl hp
  | cons s rest => rfl

@[simp] lemma ready_nil (c : Tree) : ready [] c = true := rfl

lemma ready_cons (s : Segment) (rest : List Segment) (c : Tree) :
    ready (s :: rest) c = c.isContainer := rfl

/-- What is created for a segment is a container. -/
lemma isContainer_freshFor (s : Segment) : (freshFor s).isContainer = true := by
  unfold freshFor
  cases s.isIndex <;> rfl

/-- What is put where there is nothing can be gone on from. -/
lemma ready_freshAlong (rest : List Segment) : ready rest (freshAlong rest) = true := by
  cases rest with
  | nil => rfl
  | cons s rest => exact isContainer_freshFor s

/-- The field that a copy goes on below, or what is put in its place. -/
def fieldAlong (fields : List (String × Tree)) (s : Segment) (rest : List Segment) : Tree :=
  (Entries.get? fields s.key).getD (freshAlong rest)

/-- A copy goes on below a field that is absent or ready for it. -/
lemma copyOver_map (v : Tree) (w : List Segment) (pl : Placement) {fields : List (String × Tree)}
    {s : Segment} {rest : List Segment} (h : ready rest (fieldAlong fields s rest)) :
    copyOver v w (s :: rest) pl (.map fields)
      = (⟨.map (Entries.insert fields s.key
            (copyOver v (w ++ [s]) rest pl (fieldAlong fields s rest)).1.tree),
          (copyOver v (w ++ [s]) rest pl (fieldAlong fields s rest)).1.error⟩,
        (copyOver v (w ++ [s]) rest pl (fieldAlong fields s rest)).2) := by
  cases rest with
  | nil => rfl
  | cons next rest =>
    rw [copyOver, copyInto, copyOver]
    cases hget : Entries.get? fields s.key with
    | none =>
      have hfield : fieldAlong fields s (next :: rest) = freshFor next := by
        rw [fieldAlong, hget]
        rfl
      rw [hfield]
      simp only [field?, hget, Option.isSome_none, Bool.false_eq_true, if_false, insertField,
        Entries.get?_insert_self, isContainer_freshFor, if_true]
      simp only [Outcome.within, putAt, child?, field?, Entries.get?_insert_self, putChild,
        Entries.replace_insert_self]
    | some c =>
      have hfield : fieldAlong fields s (next :: rest) = c := by
        rw [fieldAlong, hget]
        rfl
      rw [hfield] at h ⊢
      rw [ready_cons] at h
      simp only [field?, hget, Option.isSome_some, if_true, h]
      simp only [Outcome.within, putAt, child?, field?, hget, putChild,
        Entries.replace_eq_insert hget]

/-- A copy fails at a field that it cannot go on below. -/
lemma copyOver_map_not_ready (v : Tree) (w : List Segment) (pl : Placement)
    {fields : List (String × Tree)} {s : Segment} {rest : List Segment}
    (h : ready rest (fieldAlong fields s rest) = false) :
    copyOver v w (s :: rest) pl (.map fields) = (.fail (.notContainer s) (.map fields), pl) := by
  cases rest with
  | nil => exact absurd h (by simp)
  | cons next rest =>
    cases hget : Entries.get? fields s.key with
    | none =>
      have hfield : fieldAlong fields s (next :: rest) = freshAlong (next :: rest) := by
        rw [fieldAlong, hget]
        rfl
      rw [hfield, ready_freshAlong] at h
      exact absurd h (by simp)
    | some c =>
      have hfield : fieldAlong fields s (next :: rest) = c := by
        rw [fieldAlong, hget]
        rfl
      rw [hfield, ready_cons] at h
      rw [copyOver, copyInto]
      simp only [field?, hget, Option.isSome_some, if_true, h, Bool.false_eq_true, if_false]

/-- At the end of its way a copy reuses any element that is there. -/
lemma seat?_nil (pl : Placement) (e : List Segment) (s : Segment) (items : List Tree) :
    seat? pl e s [] items = slot? pl e s (· < items.length) := by
  rw [seat?]
  congr 1
  funext j
  by_cases hj : j < items.length <;> simp [hj]

/-- A copy goes on below the element that it reuses. -/
lemma copyOver_array_reused (v : Tree) (w : List Segment) (pl : Placement) {items : List Tree}
    {s : Segment} {rest : List Segment} {i : ℕ} (h : seat? pl (w ++ [s]) s rest items = some i) :
    copyOver v w (s :: rest) pl (.array items)
      = (⟨.array (items.set i (copyOver v (w ++ [s]) rest (pl.record (w ++ [s]) i)
            (items[i]?.getD .null)).1.tree),
          (copyOver v (w ++ [s]) rest (pl.record (w ++ [s]) i) (items[i]?.getD .null)).1.error⟩,
        (copyOver v (w ++ [s]) rest (pl.record (w ++ [s]) i) (items[i]?.getD .null)).2) := by
  cases rest with
  | nil =>
    have hslot : slot? pl (w ++ [s]) s (· < items.length) = some i := (seat?_nil _ _ _ _).symm.trans h
    simp only [copyOver, copyInto, hslot]
    rfl
  | cons next rest =>
    have hslot : slot? pl (w ++ [s]) s (fun i => (items[i]?.map isContainer).getD false)
        = some i := h
    rw [copyOver, copyInto, copyOver]
    simp only [hslot]

/-- A copy that reuses no element goes on below a new one. -/
lemma copyOver_array_new (v : Tree) (w : List Segment) (pl : Placement) {items : List Tree}
    {s : Segment} {rest : List Segment} (h : seat? pl (w ++ [s]) s rest items = none) :
    copyOver v w (s :: rest) pl (.array items)
      = (⟨.array (items ++ [(copyOver v (w ++ [s]) rest (pl.record (w ++ [s]) items.length)
            (freshAlong rest)).1.tree]),
          (copyOver v (w ++ [s]) rest (pl.record (w ++ [s]) items.length)
            (freshAlong rest)).1.error⟩,
        (copyOver v (w ++ [s]) rest (pl.record (w ++ [s]) items.length) (freshAlong rest)).2) := by
  cases rest with
  | nil =>
    have hslot : slot? pl (w ++ [s]) s (· < items.length) = none := (seat?_nil _ _ _ _).symm.trans h
    simp only [copyOver, copyInto, hslot]
    rfl
  | cons next rest =>
    have hslot : slot? pl (w ++ [s]) s (fun i => (items[i]?.map isContainer).getD false)
        = none := h
    rw [copyOver, copyInto, copyOver]
    simp only [hslot]
    rfl

/-- A copy fails at a value that it would have to go into. -/
lemma copyOver_value (v : Tree) (w : List Segment) (s : Segment) (rest : List Segment)
    (pl : Placement) {t : Tree} (h : t.isContainer = false) :
    ∃ e, copyOver v w (s :: rest) pl t = (.fail e t, pl) := by
  cases t with
  | array | map => exact absurd h (by simp [isContainer, kind, Kind.isContainer])
  | null | bool | number | text =>
    cases rest with
    | nil => exact ⟨_, rfl⟩
    | cons next rest => exact ⟨_, rfl⟩

/-- What a step of a copy can do. -/
theorem copyOver_cons_cases (v : Tree) (w : List Segment) (s : Segment) (rest : List Segment)
    (pl : Placement) (t : Tree) :
    (∃ e, copyOver v w (s :: rest) pl t = (.fail e t, pl))
    ∨ (∃ fields, t = .map fields ∧ ready rest (fieldAlong fields s rest) = true)
    ∨ (∃ items i, t = .array items ∧ seat? pl (w ++ [s]) s rest items = some i)
    ∨ (∃ items, t = .array items ∧ seat? pl (w ++ [s]) s rest items = none) := by
  cases t with
  | array items =>
    cases h : seat? pl (w ++ [s]) s rest items with
    | none => exact .inr (.inr (.inr ⟨items, rfl, h⟩))
    | some i => exact .inr (.inr (.inl ⟨items, i, rfl, h⟩))
  | map fields =>
    cases h : ready rest (fieldAlong fields s rest) with
    | false => exact .inl ⟨_, copyOver_map_not_ready v w pl h⟩
    | true => exact .inr (.inl ⟨fields, rfl, h⟩)
  | null | bool | number | text => exact .inl (copyOver_value v w s rest pl rfl)

/-! ### The placement after a copy -/

/-- A copy changes the entries of the source elements on its way only. -/
theorem get?_copyOver_off_path {v : Tree} {p : List Segment} {e : List Segment} :
    ∀ {w : List Segment} {pl : Placement} {t : Tree},
      (∀ r, r ≠ [] → r <+: p → e ≠ w ++ r) → (copyOver v w p pl t).2.get? e = pl.get? e := by
  induction p with
  | nil => exact fun _ => rfl
  | cons s rest ih =>
    intro w pl t h
    have hself : w ++ [s] ≠ e := fun heq => h [s] (by simp) ⟨rest, rfl⟩ heq.symm
    have hbelow : ∀ r, r ≠ [] → r <+: rest → e ≠ (w ++ [s]) ++ r := by
      intro r _ hr
      rw [List.append_assoc]
      exact h (s :: r) (by simp) (List.cons_prefix_cons.mpr ⟨rfl, hr⟩)
    rcases copyOver_cons_cases v w s rest pl t with ⟨_, hfail⟩ | ⟨fields, rfl, hready⟩ |
      ⟨items, i, rfl, hseat⟩ | ⟨items, rfl, hseat⟩
    · rw [hfail]
    · rw [copyOver_map v w pl hready]
      exact ih hbelow
    · rw [copyOver_array_reused v w pl hseat]
      exact (ih hbelow).trans (pl.get?_record_of_ne hself i)
    · rw [copyOver_array_new v w pl hseat]
      exact (ih hbelow).trans (pl.get?_record_of_ne hself _)

/-- A source element that has been placed stays where it is. -/
theorem get?_copyOver_of_some {v : Tree} {p : List Segment} {e : List Segment} {k : ℕ} :
    ∀ {w : List Segment} {pl : Placement} {t : Tree},
      pl.get? e = some k → (copyOver v w p pl t).2.get? e = some k := by
  induction p with
  | nil => exact fun h => h
  | cons s rest ih =>
    intro w pl t h
    rcases copyOver_cons_cases v w s rest pl t with ⟨_, hfail⟩ | ⟨fields, rfl, hready⟩ |
      ⟨items, i, rfl, hseat⟩ | ⟨items, rfl, hseat⟩
    · rw [hfail]
      exact h
    · rw [copyOver_map v w pl hready]
      exact ih h
    · rw [copyOver_array_reused v w pl hseat]
      exact ih (Placement.get?_record_of_some h _ i)
    · rw [copyOver_array_new v w pl hseat]
      exact ih (Placement.get?_record_of_some h _ _)

/-- A copy below a child leaves the record of the child as it is. -/
lemma get?_copyOver_self (v t : Tree) (w : List Segment) (s : Segment) (rest : List Segment)
    (pl : Placement) :
    (copyOver v (w ++ [s]) rest pl t).2.get? (w ++ [s]) = pl.get? (w ++ [s]) :=
  get?_copyOver_off_path fun _ hr _ heq => hr (List.append_right_eq_self.mp heq.symm)

/-- What is placed at or above the start of a copy stays as it is. -/
lemma get?_copyOver_of_length_le {v t : Tree} {w p e : List Segment} {pl : Placement}
    (h : e.length ≤ w.length) : (copyOver v w p pl t).2.get? e = pl.get? e := by
  refine get?_copyOver_off_path fun r hr _ heq => hr ?_
  rw [heq, List.length_append] at h
  exact List.length_eq_zero_iff.mp (by omega)

/-- A source element that a copy places lies on its way. -/
lemma prefix_of_get?_copyOver {v t : Tree} {w p e : List Segment} {pl : Placement} {k : ℕ}
    (hnone : pl.get? (w ++ e) = none) (h : (copyOver v w p pl t).2.get? (w ++ e) = some k) :
    e <+: p := by
  by_contra hpre
  rw [get?_copyOver_off_path, hnone] at h
  · exact absurd h (by simp)
  · intro r _ hr heq
    exact hpre (List.append_cancel_left heq ▸ hr)

/-- After a copy the elements on record lie on the way to one location more. -/
theorem recorded_copyOver {v t : Tree} {w p : List Segment} {pl : Placement}
    {S : Set (List Segment)} (hrec : pl.Recorded w S) :
    (copyOver v w p pl t).2.Recorded w (insert p S) := by
  intro e k he hek
  cases hold : pl.get? (w ++ e) with
  | some k' =>
    obtain ⟨h, hS, hpre⟩ := hrec e k' he hold
    exact ⟨h, Set.mem_insert_of_mem _ hS, hpre⟩
  | none => exact ⟨p, Set.mem_insert _ _, prefix_of_get?_copyOver hold hek⟩

/-- Merging a map into a map inserts its fields. -/
lemma mergeRoot_map (fields ds : List (String × Tree)) :
    mergeRoot (.map fields) (.map ds) = .ok (.map (Entries.insertAll ds fields)) := by
  have hfold : ∀ ds : List (String × Tree), (fields.foldl (fun t (f : String × Tree) =>
      t.insertField f.1 f.2) (Tree.map ds)) = .map (Entries.insertAll ds fields) := by
    induction fields with
    | nil => exact fun _ => rfl
    | cons f rest ih => exact fun ds => ih (Entries.insert ds f.1 f.2)
  exact congrArg Outcome.ok (hfold ds)

/-- Whether there is a node at a location, and one that the filter accepts. -/
def offers (source : Tree) (filter : Option Filter) (q : List Segment) : Bool :=
  (source.at? q).any fun v => filter.all (·.accepts v)

/-- A location is offered if it has a node that the filter accepts. -/
lemma offers_eq_true_iff {source : Tree} {filter : Option Filter} {q : List Segment} :
    source.offers filter q = true ↔
      ∃ v, source.at? q = some v ∧ filter.all (·.accepts v) = true := by
  rw [offers]
  cases source.at? q <;> simp

end Tree

namespace Pointer

/-! ### A copy through a pointer -/

variable {source : Tree} {filter : Option Filter} {q : List Segment}

/-- A location that is not offered is left alone. -/
lemma copyPlaced_of_not_offers (h : source.offers filter q = false) (pl : Placement) (t : Tree) :
    copyPlaced ⟨q⟩ source filter pl t = (.ok t, pl) := by
  rw [copyPlaced, at?]
  cases hv : source.at? q with
  | none => rfl
  | some v =>
    rw [Tree.offers, hv, Option.any_some] at h
    simp only [h, Bool.false_eq_true, if_false]

/-- A location that is offered is copied over the one of the destination. -/
lemma copyPlaced_of_offers {v : Tree} (hv : source.at? q = some v)
    (h : source.offers filter q = true) (hq : q ≠ []) (pl : Placement) (t : Tree) :
    copyPlaced ⟨q⟩ source filter pl t
      = ((Tree.copyOver v [] q pl t).1.mapError (·.at ⟨q⟩), (Tree.copyOver v [] q pl t).2) := by
  rw [Tree.offers, hv, Option.any_some] at h
  rw [copyPlaced, at?, hv]
  have hroot : isRoot ⟨q⟩ = false := List.isEmpty_eq_false_iff.mpr hq
  simp only [h, if_true, hroot, Bool.false_eq_true, if_false]
  rw [Tree.copyInto_eq_copyOver v [] hq]

/-- The root is merged if it is offered. -/
lemma copyPlaced_root (h : source.offers filter [] = true) (pl : Placement) (t : Tree) :
    copyPlaced ⟨[]⟩ source filter pl t
      = ((source.mergeRoot t).mapError (·.at ⟨[]⟩), pl) := by
  rw [Tree.offers, Tree.at?_nil, Option.any_some] at h
  rw [copyPlaced, at?, Tree.at?_nil]
  simp only [h, if_true]
  rfl

end Pointer

end DocumentPath
