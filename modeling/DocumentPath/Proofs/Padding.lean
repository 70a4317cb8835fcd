import Mathlib
import DocumentPath.Proofs.UntouchedLocations

/-!
# What a write adds beside its location

A write may create more than the node that it is for: the containers on the way to it, and nulls that pad an
array up to an index on the way.  The containers lie above the location, so that beside it only the nulls are
new.  `Tree.PaddedUpTo t p q` says which locations these are, in terms of the tree before the write: elements
from the end of an array up to the one that `p` goes through, where an array that does not exist yet is empty.

A created container is of the kind that the next segment calls for (`Tree.kind_of_created`).  With this the
relation `Tree.Untouched`, which only bounds what is new, becomes exact: `Pointer.at?_beside_iff` says what is
found beside the location after a write.
-/

namespace DocumentPath

namespace Tree

/-- A write at `p` fills `q` up with a null: `q` is an element before the one that `p` goes through in an
array, and behind the elements that the array has. -/
def PaddedUpTo (t : Tree) (p q : List Segment) : Prop :=
  ∃ w s s' rest i j, q = w ++ [s] ∧ p = w ++ s' :: rest ∧
    s.index? = some i ∧ s'.index? = some j ∧ i < j ∧
    (t.at? w = none ∨ ∃ items, t.at? w = some (.array items) ∧ items.length ≤ i)

/-- Nothing is there yet where an array will be padded. -/
lemma PaddedUpTo.at?_eq_none {t : Tree} {p q : List Segment} (h : t.PaddedUpTo p q) :
    t.at? q = none := by
  obtain ⟨w, s, -, -, i, -, rfl, -, hs, -, -, hw⟩ := h
  rw [at?_concat]
  rcases hw with hnone | ⟨items, hitems, hle⟩
  · rw [hnone, Option.bind_none]
  · rw [hitems, Option.bind_some, child?, hs, Option.bind_some, element?,
      List.getElem?_eq_none hle]

/-- The element of an index is there if the array has one behind it. -/
lemma exists_child?_of_lt {items : List Tree} {s s' : Segment} {i j : ℕ} (hs : s.index? = some i)
    (hs' : s'.index? = some j) (hlt : i < j) {c : Tree} (hc : (array items).child? s' = some c) :
    ∃ c', (array items).child? s = some c' := by
  rw [child?, hs', Option.bind_some, element?] at hc
  have hj : j < items.length := (List.getElem?_eq_some_iff.mp hc).1
  refine ⟨items[i], ?_⟩
  rw [child?, hs, Option.bind_some, element?, List.getElem?_eq_getElem]

/-- A container that a walk creates on the way is of the kind that the next segment calls for. -/
theorem kind_of_created {change : Segment → Tree → Outcome Obstacle}
    (hchange : ∀ s t, ChangedAt s t (change s t).tree) {w : List Segment} {s : Segment}
    {rest : List Segment} {t u : Tree} (hnone : t.at? w = none)
    (hu : (atParent change (w ++ s :: rest) t).tree.at? w = some u) : u.kind = (freshFor s).kind := by
  induction w generalizing t with
  | nil => exact absurd hnone (by simp)
  | cons x w ih =>
    have hne : w ++ s :: rest ≠ [] := List.append_ne_nil_of_right_ne_nil w (List.cons_ne_nil s rest)
    obtain ⟨next, below, hnext⟩ := List.exists_cons_of_ne_nil hne
    rw [List.cons_append, hnext] at hu
    rcases atParent_cons_cases change x next below t with ⟨o, hfail, -⟩ | ⟨c, hc, hgo⟩ |
      ⟨-, -, t', -, hchild, hgo⟩
    · rw [hfail] at hu
      exact absurd (hnone.symm.trans hu) (by simp)
    · rw [hgo, at?_within_cons hc, ← hnext] at hu
      rw [at?_cons, hc, Option.bind_some] at hnone
      exact ih hnone hu
    · rw [hgo, at?_within_cons hchild] at hu
      cases w with
      | nil =>
        obtain ⟨rfl, rfl⟩ := List.cons.inj hnext
        obtain ⟨u', hu', hkind⟩ := (untouched_atParent hchange (s :: rest) (freshFor s)).kind [] _
          (by simp) rfl
        rw [← Option.some.inj (hu'.symm.trans hu)]
        exact hkind
      | cons y w =>
        rw [← hnext] at hu
        refine ih ?_ hu
        rw [at?_cons, child?_freshFor, Option.bind_none]

/-- What a write at a location makes of a tree: it leaves everything beside the location alone, something
is there afterwards, and what has been created on the way is what the segments call for. -/
structure WrittenAt (p : List Segment) (t t' : Tree) : Prop where
  untouched : Untouched {p} t t'
  there : ∃ v, t'.at? p = some v
  created : ∀ w s rest u, p = w ++ s :: rest → t.at? w = none → t'.at? w = some u →
    u.kind = (freshFor s).kind

section WrittenAt

variable {p q w rest : List Segment} {s : Segment} {t t' u : Tree}

/-- A node on the way that was there before keeps its kind. -/
lemma WrittenAt.kind_above (h : WrittenAt (w ++ s :: rest) t t') (hu : t.at? w = some u) :
    ∃ u', t'.at? w = some u' ∧ u'.kind = u.kind := by
  refine h.untouched.kind w u (fun p hp hpre => ?_) hu
  rw [hp] at hpre
  exact absurd hpre.length_le (by simp)

/-- The array that is to be padded is there after the write. -/
lemma WrittenAt.exists_array (h : WrittenAt (w ++ s :: rest) t t') (hs : s.isIndex = true)
    (hw : t.at? w = none ∨ ∃ items, t.at? w = some (.array items)) :
    ∃ items, t'.at? w = some (.array items) := by
  have hkind : ∃ u, t'.at? w = some u ∧ u.kind = .array := by
    rcases hw with hnone | ⟨items, hitems⟩
    · obtain ⟨v, hv⟩ := h.there
      rw [at?_append] at hv
      obtain ⟨u, hu, -⟩ := Option.bind_eq_some_iff.mp hv
      refine ⟨u, hu, (h.created w s rest u rfl hnone hu).trans ?_⟩
      rw [freshFor, hs, if_pos rfl, kind]
    · exact h.kind_above hitems
  obtain ⟨u, hu, hkind⟩ := hkind
  obtain ⟨items, rfl⟩ := exists_array_of_kind hkind
  exact ⟨items, hu⟩

/-- What is new beside the location of a write is a null that pads an array. -/
theorem WrittenAt.paddedUpTo (h : WrittenAt p t t') (hq : ¬ Comparable p q) (hnone : t.at? q = none)
    (hu : t'.at? q = some u) : u = .null ∧ t.PaddedUpTo p q := by
  have hbeside : ∀ p' ∈ ({p} : Set (List Segment)), ¬ Comparable p' q := by
    rintro p' rfl
    exact hq
  rcases h.untouched.padded q hbeside hnone with hnone' |
    ⟨w, s, s', rest, rfl, rfl, ⟨i, j, hi, hj, hlt⟩, ⟨items', hw'⟩, hnull⟩
  · exact absurd (hnone'.symm.trans hu) (by simp)
  · refine ⟨Option.some.inj (hu.symm.trans hnull), w, s, s', rest, i, j, rfl, rfl, hi, hj, hlt, ?_⟩
    cases hw : t.at? w with
    | none => exact .inl rfl
    | some parent =>
      -- the array was one before, and the element is behind those that it had
      obtain ⟨parent', hparent', hkind⟩ := h.kind_above hw
      rw [← Option.some.inj (hw'.symm.trans hparent')] at hkind
      obtain ⟨items, rfl⟩ := exists_array_of_kind hkind.symm
      rw [at?_concat, hw, Option.bind_some, child?, hi, Option.bind_some] at hnone
      exact .inr ⟨items, rfl, List.getElem?_eq_none_iff.mp hnone⟩

/-- An array on the way is padded with nulls up to the element that the write goes through. -/
theorem WrittenAt.at?_of_paddedUpTo (h : WrittenAt p t t') (hq : ¬ Comparable p q)
    (hpadded : t.PaddedUpTo p q) : t'.at? q = some .null := by
  have hnone := hpadded.at?_eq_none
  have hsome : ∃ u, t'.at? q = some u := by
    obtain ⟨w, s, s', rest, i, j, rfl, rfl, hi, hj, hlt, hw⟩ := hpadded
    have hindex : s'.isIndex = true := by rw [Segment.isIndex, hj, Option.isSome_some]
    have hbefore : t.at? w = none ∨ ∃ items, t.at? w = some (.array items) := by
      rcases hw with hnew | ⟨items, hitems, -⟩
      · exact .inl hnew
      · exact .inr ⟨items, hitems⟩
    obtain ⟨items', hw'⟩ := h.exists_array hindex hbefore
    obtain ⟨v, hv⟩ := h.there
    rw [at?_append, hw', Option.bind_some] at hv
    obtain ⟨c, hc, -⟩ := at?_cons_eq_some_iff.mp hv
    rw [at?_concat, hw', Option.bind_some]
    exact exists_child?_of_lt hi hj hlt hc
  obtain ⟨u, hu⟩ := hsome
  rw [hu, (h.paddedUpTo hq hnone hu).1]

/-- Beside the location of a write is what was there before it, and nulls that pad arrays. -/
theorem WrittenAt.at?_eq_some_iff (h : WrittenAt p t t') (hq : ¬ Comparable p q) :
    t'.at? q = some u ↔ t.at? q = some u ∨ u = .null ∧ t.PaddedUpTo p q := by
  have hkept : ∀ u, t.at? q = some u → t'.at? q = some u := fun u hu =>
    h.untouched.kept q u (by rintro p' rfl; exact hq) hu
  constructor
  · intro hu
    cases hbefore : t.at? q with
    | some u' => exact .inl ((hkept u' hbefore).symm.trans hu)
    | none => exact .inr (h.paddedUpTo hq hbefore hu)
  · rintro (hu | ⟨rfl, hpadded⟩)
    · exact hkept u hu
    · exact h.at?_of_paddedUpTo hq hpadded

end WrittenAt

end Tree

namespace Pointer

/-- A pointer with a segment does not lead to the root. -/
lemma isRoot_eq_false_of_segments {p : Pointer} {w rest : List Segment} {s : Segment}
    (h : p.segments = w ++ s :: rest) : p.isRoot = false := by
  rw [isRoot, h]
  cases w <;> rfl

/-- Setting a value writes at its location. -/
lemma writtenAt_set {p : Pointer} {v t : Tree} (h : (p.set v t).error = none) :
    Tree.WrittenAt p.segments t (p.set v t).tree where
  untouched := p.untouched_set v t
  there := ⟨v, at?_set h⟩
  created w s rest u hp hnone hu := by
    rw [set, isRoot_eq_false_of_segments hp, if_neg Bool.false_ne_true, hp] at hu
    exact Tree.kind_of_created (Tree.changedAt_setChild v) hnone hu

/-- Adding a value writes at its location. -/
lemma writtenAt_add {p : Pointer} {v t : Tree} (h : (p.add v t).error = none) :
    Tree.WrittenAt p.segments t (p.add v t).tree where
  untouched := p.untouched_add v t
  there := by
    obtain ⟨items, -, hadded⟩ := at?_add h
    exact ⟨_, hadded⟩
  created w s rest u hp hnone hu := by
    rw [add, isRoot_eq_false_of_segments hp, if_neg Bool.false_ne_true, hp] at hu
    exact Tree.kind_of_created (Tree.changedAt_addToChild v) hnone hu

/-- Opening a container writes at its location. -/
lemma writtenAt_openContainer {p : Pointer} {t : Tree} (h : (p.openContainer t).error = none) :
    Tree.WrittenAt p.segments t (p.openContainer t).tree where
  untouched := p.untouched_openContainer t
  there := exists_openContainer h
  created w s rest u hp hnone hu := by
    rw [openContainer, isRoot_eq_false_of_segments hp, if_neg Bool.false_ne_true, hp] at hu
    exact Tree.kind_of_created Tree.changedAt_openChild hnone hu

/-- After writing, appending or opening a container, the locations beside it hold what they held before, and
where an array on the way has been padded they hold null.  A node on the way that was there before is of the
same kind as before. -/
theorem at?_beside_iff (p : Pointer) (v t : Tree) {o : Outcome PathError}
    (ho : o = p.set v t ∨ o = p.add v t ∨ o = p.openContainer t) (hok : o.error = none) :
    (∀ q u, ¬ Comparable p.segments q →
      (o.tree.at? q = some u ↔ t.at? q = some u ∨ u = .null ∧ t.PaddedUpTo p.segments q)) ∧
    ∀ w u, w <+: p.segments → w ≠ p.segments → t.at? w = some u →
      ∃ u', o.tree.at? w = some u' ∧ u'.kind = u.kind := by
  have hwritten : Tree.WrittenAt p.segments t o.tree := by
    rcases ho with rfl | rfl | rfl
    · exact writtenAt_set hok
    · exact writtenAt_add hok
    · exact writtenAt_openContainer hok
  refine ⟨fun q u hq => hwritten.at?_eq_some_iff hq, fun w u hpre hne hu => ?_⟩
  obtain ⟨rest, hrest⟩ := hpre
  cases rest with
  | nil => exact absurd ((List.append_nil w).symm.trans hrest) hne
  | cons s rest =>
    rw [← hrest] at hwritten
    exact hwritten.kind_above hu

/-- Writing `/a/3/x` into `{"a": [true], "b": 1}` pads the array up to index 3, and `/a/2` is null afterwards. -/
theorem at?_beside_iff_gap :
    ∃ (p : Pointer) (t : Tree) (o : Outcome PathError), p.text = "/a/3/x" ∧
      t = .map [("a", .array [.bool true]), ("b", .number (.int 1))] ∧
      (o = p.set .null t ∨ o = p.add .null t ∨ o = p.openContainer t) ∧ o.error = none ∧
      ¬ Comparable p.segments [⟨"a"⟩, ⟨"2"⟩] ∧ t.PaddedUpTo p.segments [⟨"a"⟩, ⟨"2"⟩] ∧
      o.tree.at? [⟨"a"⟩, ⟨"2"⟩] = some .null ∧
      (∃ u, o.tree.at? [⟨"a"⟩] = some u ∧ u.kind = .array) := by
  let p : Pointer := ⟨[⟨"a"⟩, ⟨"3"⟩, ⟨"x"⟩]⟩
  let t : Tree := .map [("a", .array [.bool true]), ("b", .number (.int 1))]
  have hok : (p.set .null t).error = none := by decide
  have hbeside : ¬ Comparable p.segments [⟨"a"⟩, ⟨"2"⟩] := by decide
  have hpadded : t.PaddedUpTo p.segments [⟨"a"⟩, ⟨"2"⟩] :=
    ⟨[⟨"a"⟩], ⟨"2"⟩, ⟨"3"⟩, [⟨"x"⟩], 2, 3, rfl, rfl, by decide, by decide, by decide,
      .inr ⟨[.bool true], rfl, by decide⟩⟩
  obtain ⟨hiff, hkind⟩ := at?_beside_iff p .null t (.inl rfl) hok
  exact ⟨p, t, _, rfl, rfl, .inl rfl, hok, hbeside, hpadded,
    (hiff _ _ hbeside).mpr (.inr ⟨rfl, hpadded⟩), hkind [⟨"a"⟩] _ (by decide) (by decide) rfl⟩

end Pointer

end DocumentPath
