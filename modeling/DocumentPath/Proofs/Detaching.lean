import Mathlib
import DocumentPath.Proofs.StepRemovals
import DocumentPath.Proofs.UntouchedLocations

/-!
# Detaching one location

Detaching returns the node at a location and takes it out of its container.  What that does to the container
is said by `Tree.takeChild?_eq_some`: a map loses a field and keeps the order of the others, and the elements
of an array behind the one taken move down by one.

All locations beside the one detached stay as they are, but for those that lead through an element that has
moved; these are found under the index before (`Pointer.remove_closes_up`).
-/

namespace DocumentPath

/-- The entries without the one of a key, which is the first under that key. -/
lemma Entries.erase_eq_eraseP {κ α : Type*} [DecidableEq κ] (es : Entries κ α) (k : κ) :
    erase es k = es.eraseP (·.1 = k) := by
  induction es with
  | nil => rfl
  | cons e rest ih =>
    obtain ⟨k', v⟩ := e
    rw [erase, List.eraseP_cons, ih]
    by_cases hk : k' = k
    · simp [hk]
    · simp [hk]

/-- A location beside `w ++ [s]` is beside `w`, or leads through another child of the node at `w`. -/
lemma not_comparable_concat {w q : List Segment} {s : Segment} (h : ¬ Comparable (w ++ [s]) q) :
    ¬ Comparable w q ∨ ∃ s' rest, s' ≠ s ∧ q = w ++ s' :: rest := by
  by_cases hw : w <+: q
  · obtain ⟨r, rfl⟩ := hw
    cases r with
    | nil => exact absurd (.inr (by simp)) h
    | cons s' rest =>
      refine .inr ⟨s', rest, ?_, rfl⟩
      rintro rfl
      exact h (.inl (by simp))
  · refine .inl fun hcomp => ?_
    rcases hcomp with hpre | hpre
    · exact hw hpre
    · exact h (.inr (hpre.trans (List.prefix_append w [s])))

namespace Tree

/-- Putting a node at a location leaves what stands beside it. -/
theorem at?_putAt_of_not_comparable {t : Tree} {w q : List Segment} (h : ¬ Comparable w q) (v : Tree) :
    (t.putAt w v).at? q = t.at? q := by
  induction w generalizing t q with
  | nil => exact absurd (.inl List.nil_prefix) h
  | cons s rest ih =>
    cases q with
    | nil => exact absurd (comparable_nil_right _) h
    | cons s' q =>
      cases hc : t.child? s with
      | none => rw [putAt, hc]
      | some c =>
        rw [putAt_cons hc, at?_cons, at?_cons]
        by_cases hs : s' = s
        · subst hs
          have hbelow : ¬ Comparable rest q := fun hcomp => h (comparable_cons_cons.mpr ⟨rfl, hcomp⟩)
          rw [child?_putChild_self hc, hc, Option.bind_some, Option.bind_some, ih hbelow]
        · rw [child?_putChild_of_ne t hs]

/-- Taking a child takes a field of a map, or an element of an array. -/
theorem takeChild?_eq_some {t t' v : Tree} {s : Segment} (h : t.takeChild? s = some (v, t')) :
    t.child? s = some v ∧
      ((∃ fields, t = .map fields ∧ t' = .map (fields.eraseP (·.1 = s.key))) ∨
        ∃ items i, t = .array items ∧ s.index? = some i ∧ i < items.length ∧
          t' = .array (items.eraseIdx i)) := by
  cases t with
  | map fields =>
    obtain ⟨c, hc, heq⟩ := Option.map_eq_some_iff.mp h
    obtain ⟨rfl, rfl⟩ := Prod.mk.inj heq
    exact ⟨hc, .inl ⟨fields, rfl, congrArg map (Entries.erase_eq_eraseP fields s.key)⟩⟩
  | array items =>
    obtain ⟨i, hi, htake⟩ := Option.bind_eq_some_iff.mp h
    obtain ⟨c, hc, heq⟩ := Option.map_eq_some_iff.mp htake
    obtain ⟨rfl, rfl⟩ := Prod.mk.inj heq
    refine ⟨Option.bind_eq_some_iff.mpr ⟨i, hi, hc⟩, .inr ⟨items, i, rfl, hi, ?_, rfl⟩⟩
    exact (List.getElem?_eq_some_iff.mp hc).1
  | null | bool | number | text => exact absurd h (by simp [takeChild?])

/-- The other fields of a map are found under their keys. -/
lemma child?_eraseP_of_ne (fields : List (String × Tree)) {s s' : Segment} (h : s' ≠ s) :
    (map (fields.eraseP (·.1 = s.key))).child? s' = (map fields).child? s' := by
  have hkey : s.key ≠ s'.key := fun hk => h (congrArg Segment.mk hk.symm)
  rw [← Entries.erase_eq_eraseP]
  exact Entries.get?_erase_of_ne fields hkey

/-- The elements before the one taken keep their indexes. -/
lemma child?_eraseIdx_of_not_behind (items : List Tree) {i : ℕ} {s : Segment}
    (h : ∀ j, s.index? = some j → j < i) :
    (array (items.eraseIdx i)).child? s = (array items).child? s := by
  rw [child?, child?]
  cases hj : s.index? with
  | none => rfl
  | some j =>
    rw [Option.bind_some, Option.bind_some, element?, element?, List.getElem?_eraseIdx_of_lt (h j hj)]

/-- The elements behind the one taken move down by one. -/
lemma child?_eraseIdx_of_behind (items : List Tree) {i j : ℕ} {s : Segment} (hj : s.index? = some j)
    (hlt : i < j) :
    (array (items.eraseIdx i)).child? (.ofIndex (j - 1)) = (array items).child? s := by
  have hbound : j - 1 < Segment.indexBound :=
    (Nat.sub_le j 1).trans_lt (Segment.lt_indexBound_of_index? hj)
  rw [child?, child?, hj, Segment.index?_ofIndex hbound, Option.bind_some, Option.bind_some, element?,
    element?, List.getElem?_eraseIdx_of_ge (Nat.le_sub_one_of_lt hlt), Nat.sub_add_cancel (by omega)]

end Tree

namespace Pointer

/-- A node that is there is detached by taking it from its container. -/
lemma exists_takeChild?_of_at? {p : Pointer} {w : List Segment} {s : Segment}
    (hp : p.segments = w ++ [s]) {t v : Tree} (hv : p.at? t = some v) :
    ∃ parent parent', t.at? w = some parent ∧ parent.takeChild? s = some (v, parent') ∧
      p.remove t = (some v, t.putAt w parent') := by
  have htail : p.tail? = some s := by rw [tail?, hp, List.getLast?_concat]
  have hhead : p.head = ⟨w⟩ := by rw [head, hp, List.dropLast_concat]
  rw [at?_of_tail? htail, hhead] at hv
  obtain ⟨parent, hparent, hchild⟩ := Option.bind_eq_some_iff.mp hv
  cases htake : parent.takeChild? s with
  | none => exact absurd ((Tree.takeChild?_eq_none_iff.mp htake).symm.trans hchild) (by simp)
  | some r =>
    obtain ⟨v', parent'⟩ := r
    obtain rfl := Option.some.inj ((Tree.takeChild?_eq_some htake).1.symm.trans hchild)
    refine ⟨parent, parent', hparent, htake, ?_⟩
    rw [remove_eq_some htail (by rw [hhead]; exact hparent) htake, hhead]

/-- A pointer below the root returns what is at its location. -/
lemma remove_fst {p : Pointer} (hp : p.isRoot = false) (t : Tree) : (p.remove t).1 = p.at? t := by
  cases hv : p.at? t with
  | none => rw [remove_of_absent hv]
  | some v =>
    have hsegments := (List.dropLast_append_getLast (ne_nil_of_isRoot_eq_false hp)).symm
    obtain ⟨_, _, _, _, hremove⟩ := exists_takeChild?_of_at? hsegments hv
    rw [hremove]

/-- The root detaches nothing.  Any other pointer detaches the node at its location, and changes nothing if
there is none.  If the node is the field of a map, the fields of the other keys keep their order, and
everything beside the location stays.  If it is the element of an array at an index `i`, everything beside the
location stays as well, but for the elements behind, each of which is found with all that is below it under the
index before. -/
theorem remove_closes_up (p : Pointer) (t : Tree) :
    (p.isRoot = true → p.remove t = (none, t)) ∧
    (p.isRoot = false → (p.remove t).1 = p.at? t) ∧
    (p.at? t = none → (p.remove t).2 = t) ∧
    ∀ w s v, p.segments = w ++ [s] → p.at? t = some v →
      (∃ fields, t.at? w = some (.map fields) ∧
        (p.remove t).2.at? w = some (.map (fields.eraseP (·.1 = s.key))) ∧
        ∀ q, ¬ Comparable p.segments q → (p.remove t).2.at? q = t.at? q) ∨
      ∃ items i, t.at? w = some (.array items) ∧ s.index? = some i ∧
        (p.remove t).2.at? w = some (.array (items.eraseIdx i)) ∧
        (items.eraseIdx i).length + 1 = items.length ∧
        (∀ q, ¬ Comparable p.segments q →
          (¬ ∃ s' j rest, q = w ++ s' :: rest ∧ s'.index? = some j ∧ i < j) →
          (p.remove t).2.at? q = t.at? q) ∧
        ∀ s' j rest, s'.index? = some j → i < j →
          (p.remove t).2.at? (w ++ .ofIndex (j - 1) :: rest) = t.at? (w ++ s' :: rest) := by
  refine ⟨fun hroot => ?_, fun hroot => remove_fst hroot t, fun hnone => by rw [remove_of_absent hnone], ?_⟩
  · have htail : p.tail? = none := by rw [tail?, isRoot_eq_true_iff.mp hroot, List.getLast?_nil]
    exact remove_eq_none fun s parent hs _ => absurd (htail.symm.trans hs) (by simp)
  · intro w s v hp hv
    obtain ⟨parent, parent', hparent, htake, hremove⟩ := exists_takeChild?_of_at? hp hv
    -- what is found below the container after it has been put back without the node
    have hbelow : ∀ q, (t.putAt w parent').at? (w ++ q) = parent'.at? q := fun q =>
      Tree.at?_putAt hparent parent' q
    have hself : (t.putAt w parent').at? w = some parent' := by
      simpa using hbelow []
    rw [hremove, hp]
    rcases (Tree.takeChild?_eq_some htake).2 with ⟨fields, rfl, rfl⟩ | ⟨items, i, rfl, hi, hlt, rfl⟩
    · refine .inl ⟨fields, hparent, hself, fun q hq => ?_⟩
      rcases not_comparable_concat hq with hbeside | ⟨s', rest, hne, rfl⟩
      · exact Tree.at?_putAt_of_not_comparable hbeside _
      · rw [hbelow, Tree.at?_append, hparent, Option.bind_some, Tree.at?_cons, Tree.at?_cons,
          Tree.child?_eraseP_of_ne fields hne]
    · refine .inr ⟨items, i, hparent, hi, hself, ?_, fun q hq hbehind => ?_, fun s' j rest hj hij => ?_⟩
      · rw [List.length_eraseIdx_of_lt hlt]
        omega
      · rcases not_comparable_concat hq with hbeside | ⟨s', rest, hne, rfl⟩
        · exact Tree.at?_putAt_of_not_comparable hbeside _
        · have hbefore : ∀ j, s'.index? = some j → j < i := by
            intro j hj
            have hne' : j ≠ i := Segment.index?_ne hne hj hi
            have hle : ¬ i < j := fun hij => hbehind ⟨s', j, rest, rfl, hj, hij⟩
            omega
          rw [hbelow, Tree.at?_append, hparent, Option.bind_some, Tree.at?_cons, Tree.at?_cons,
            Tree.child?_eraseIdx_of_not_behind items hbefore]
      · rw [hbelow, Tree.at?_append, hparent, Option.bind_some, Tree.at?_cons, Tree.at?_cons,
          Tree.child?_eraseIdx_of_behind items hj hij]

/-- Detaching `/a/0` from `{"a": [true, {"b": 1}]}` leaves the map that was at `/a/1` at `/a/0`. -/
theorem remove_closes_up_first : ∃ (p : Pointer) (t : Tree) (w : List Segment) (s : Segment),
    p.text = "/a/0" ∧ t = .map [("a", .array [.bool true, .map [("b", .number (.int 1))]])] ∧
    p.isRoot = false ∧ p.segments = w ++ [s] ∧ p.at? t = some (.bool true) ∧
    (p.remove t).1 = some (.bool true) ∧ Segment.index? ⟨"1"⟩ = some 1 ∧
    (p.remove t).2.at? (w ++ [.ofIndex (1 - 1), ⟨"b"⟩]) = some (.number (.int 1)) := by
  let p : Pointer := ⟨[⟨"a"⟩, ⟨"0"⟩]⟩
  let t : Tree := .map [("a", .array [.bool true, .map [("b", .number (.int 1))]])]
  have hindex : Segment.index? ⟨"1"⟩ = some 1 := by decide
  obtain ⟨-, hreturns, -, hcases⟩ := remove_closes_up p t
  rcases hcases [⟨"a"⟩] ⟨"0"⟩ (.bool true) rfl rfl with ⟨fields, hfields, -⟩ |
    ⟨items, i, -, hi, -, -, -, hbehind⟩
  · exact absurd (show some (Tree.array _) = some (.map fields) from hfields) (by simp)
  · obtain rfl : 0 = i := Option.some.inj (show some 0 = some i from hi)
    exact ⟨p, t, [⟨"a"⟩], ⟨"0"⟩, rfl, rfl, rfl, rfl, rfl, hreturns rfl, hindex,
      hbehind ⟨"1"⟩ 1 [⟨"b"⟩] hindex (by decide)⟩

end Pointer

end DocumentPath
