import Mathlib
import DocumentPath.Proofs.Writes

/-!
# What a write leaves alone

Two locations are comparable if one lies at or below the other.  A change at some locations leaves every
location beside them as it is: `Tree.Untouched T t t'` says of two trees that nodes beside the locations in
`T` are the same in both, that nodes above them are of the same kind, and that what is new beside them is a
null that pads an array up to an index on the way to one of them.

The relation is transitive and thus goes on along a run of changes.  It holds of whatever is put at a
location (`Tree.untouched_putAt`) and, by one induction along the walk of `Tree.atParent`, of all three
operations that create what is missing on the way (`Tree.untouched_atParent`).
-/

namespace DocumentPath

/-- One of two locations lies at or below the other. -/
def Comparable (p q : List Segment) : Prop := p <+: q ∨ q <+: p

instance (p q : List Segment) : Decidable (Comparable p q) :=
  inferInstanceAs (Decidable (p <+: q ∨ q <+: p))

lemma comparable_nil_right (p : List Segment) : Comparable p [] := .inr List.nil_prefix

/-- Two locations are comparable if they begin alike and are comparable from there. -/
lemma comparable_cons_cons {s s' : Segment} {p q : List Segment} :
    Comparable (s :: p) (s' :: q) ↔ s = s' ∧ Comparable p q := by
  rw [Comparable, List.cons_prefix_cons, List.cons_prefix_cons, Comparable, eq_comm (a := s'),
    ← and_or_left]

namespace Segment

/-- The segment names an index before that of another. -/
def IndexBefore (s s' : Segment) : Prop := ∃ i j, s.index? = some i ∧ s'.index? = some j ∧ i < j

/-- Different segments do not name the same index. -/
lemma index?_ne {s s' : Segment} (hne : s ≠ s') {i j : ℕ} (hi : s.index? = some i)
    (hj : s'.index? = some j) : i ≠ j := by
  rintro rfl
  exact hne ((eq_ofIndex_of_index? hi).trans (eq_ofIndex_of_index? hj).symm)

end Segment

namespace Entries

variable {κ α : Type*} [DecidableEq κ]

/-- A replacement changes nothing under other keys. -/
lemma get?_replace_of_ne (es : Entries κ α) {k k' : κ} (h : k ≠ k') (v : α) :
    get? (replace es k v) k' = get? es k' := by
  cases hk : get? es k with
  | some v' => rw [replace_eq_insert hk, get?_insert_of_ne es h]
  | none =>
    -- an absent key changes nothing
    congr 1
    induction es with
    | nil => rfl
    | cons e rest ih =>
      obtain ⟨k₀, v₀⟩ := e
      rw [get?] at hk
      split at hk
      · exact absurd hk (by simp)
      · next hne => rw [replace, if_neg hne, ih hk]

end Entries

namespace Tree

/-! ### Changes of one child -/

/-- Two nodes are the same but for the child under `s`, and for nulls that pad an array before it. -/
structure ChangedAt (s : Segment) (t t' : Tree) : Prop where
  kind : t'.kind = t.kind
  kept : ∀ s' c, s' ≠ s → t.child? s' = some c → t'.child? s' = some c
  padded : ∀ s' c, s' ≠ s → t.child? s' = none → t'.child? s' = some c →
    c = .null ∧ t.kind = .array ∧ s'.IndexBefore s

/-- A tree differs nowhere from itself. -/
lemma ChangedAt.refl (s : Segment) (t : Tree) : ChangedAt s t t where
  kind := rfl
  kept _ _ _ h := h
  padded _ _ _ hnone h := absurd (hnone.symm.trans h) (by simp)

/-- Two changes at one segment are a change there. -/
lemma ChangedAt.trans {s : Segment} {t t' t'' : Tree} (h : ChangedAt s t t')
    (h' : ChangedAt s t' t'') : ChangedAt s t t'' where
  kind := h'.kind.trans h.kind
  kept s' c hne hc := h'.kept s' c hne (h.kept s' c hne hc)
  padded s' c hne hnone hc := by
    cases hmid : t'.child? s' with
    | none =>
      obtain ⟨hnull, hkind, hbefore⟩ := h'.padded s' c hne hmid hc
      exact ⟨hnull, h.kind.symm.trans hkind, hbefore⟩
    | some c' =>
      obtain rfl : c' = c := Option.some.inj ((h'.kept s' c' hne hmid).symm.trans hc)
      exact h.padded s' c' hne hnone hmid

/-- A child put in place leaves the other children. -/
lemma child?_putChild_of_ne (t : Tree) {s s' : Segment} (hne : s' ≠ s) (v : Tree) :
    (t.putChild s v).child? s' = t.child? s' := by
  cases t with
  | array items =>
    rw [putChild]
    cases hi : s.index? with
    | none => rfl
    | some i =>
      rw [child?, child?]
      cases hj : s'.index? with
      | none => rfl
      | some j => exact List.getElem?_set_ne (Segment.index?_ne hne.symm hi hj)
  | map fields =>
    exact Entries.get?_replace_of_ne fields (fun h => hne (congrArg Segment.mk h.symm)) v
  | null | bool | number | text => rfl

/-- Putting a child back changes a tree at its segment. -/
lemma changedAt_putChild (t : Tree) (s : Segment) (v : Tree) : ChangedAt s t (t.putChild s v) where
  kind := by
    cases t with
    | array items =>
      rw [putChild]
      cases s.index? <;> rfl
    | map | null | bool | number | text => rfl
  kept s' c hne hc := (child?_putChild_of_ne t hne v).trans hc
  padded s' c hne hnone hc := by
    rw [child?_putChild_of_ne t hne, hnone] at hc
    exact absurd hc (by simp)

/-- An item of an array before the one that is placed is there already or pads the array. -/
lemma getElem?_placeItem_of_ne (items : List Tree) {i j : ℕ} (hne : j ≠ i) (v : Tree) :
    (placeItem items i v)[j]? = items[j]? ∨
      items[j]? = none ∧ (placeItem items i v)[j]? = some .null ∧ j < i := by
  unfold placeItem
  split
  · exact .inl (List.getElem?_set_ne (Ne.symm hne))
  · next hge =>
    by_cases hj : j < items.length
    · rw [List.append_assoc, List.getElem?_append_left hj]
      exact .inl rfl
    · have hlen : (items ++ List.replicate (i - items.length) Tree.null).length = i := by
        rw [List.length_append, List.length_replicate]
        omega
      rcases Nat.lt_or_gt_of_ne hne with hlt | hgt
      · refine .inr ⟨List.getElem?_eq_none (Nat.le_of_not_lt hj), ?_, hlt⟩
        rw [List.getElem?_append_left (hlen.symm ▸ hlt),
          List.getElem?_append_right (Nat.le_of_not_lt hj)]
        exact List.getElem?_replicate_of_lt (by omega)
      · refine .inl ?_
        rw [List.getElem?_eq_none (Nat.le_of_not_lt hj), List.getElem?_eq_none]
        rw [List.length_append, hlen, List.length_singleton]
        omega

/-- A placed child leaves the other children. -/
lemma changedAt_place {t t' v : Tree} {s : Segment} (h : t.place s v = .ok t') :
    ChangedAt s t t' := by
  cases t with
  | array items =>
    rw [place] at h
    cases hi : s.index? with
    | none => simp [hi] at h
    | some i =>
      rw [hi] at h
      obtain rfl : Tree.array (placeItem items i v) = t' := Except.ok.inj h
      have hitem : ∀ s' j, s' ≠ s → s'.index? = some j →
          (placeItem items i v)[j]? = items[j]? ∨
            items[j]? = none ∧ (placeItem items i v)[j]? = some .null ∧ j < i :=
        fun s' j hne hj => getElem?_placeItem_of_ne items (Segment.index?_ne hne hj hi) v
      refine ⟨rfl, fun s' c hne hc => ?_, fun s' c hne hnone hc => ?_⟩
      · obtain ⟨j, hj, hget⟩ := Option.bind_eq_some_iff.mp hc
        refine Option.bind_eq_some_iff.mpr ⟨j, hj, ?_⟩
        rcases hitem s' j hne hj with hsame | ⟨hnone, -, -⟩
        · exact hsame.trans hget
        · exact absurd (hnone.symm.trans hget) (by simp)
      · obtain ⟨j, hj, hget⟩ := Option.bind_eq_some_iff.mp hc
        have hbefore : items[j]? = none := by
          rw [child?, hj, Option.bind_some] at hnone
          exact hnone
        rcases hitem s' j hne hj with hsame | ⟨-, hnull, hlt⟩
        · exact absurd ((hsame.symm.trans hget).symm.trans hbefore) (by simp)
        · exact ⟨Option.some.inj (hget.symm.trans hnull), rfl, j, i, hj, hi, hlt⟩
  | map fields =>
    obtain rfl : Tree.map (Entries.insert fields s.key v) = t' := Except.ok.inj h
    have hfield : ∀ s', s' ≠ s → (Tree.map (Entries.insert fields s.key v)).child? s'
        = (Tree.map fields).child? s' := fun s' hne =>
      Entries.get?_insert_of_ne fields (fun hk => hne (congrArg Segment.mk hk.symm)) v
    refine ⟨rfl, fun s' c hne hc => (hfield s' hne).trans hc, fun s' c hne hnone hc => ?_⟩
    rw [hfield s' hne, hnone] at hc
    exact absurd hc (by simp)
  | null | bool | number | text => exact absurd h (by simp [place])

/-- Making sure that a child is there changes a tree at its segment. -/
lemma changedAt_ensureChild {t t' v : Tree} {s : Segment} (h : t.ensureChild s v = .ok t') :
    ChangedAt s t t' := by
  unfold ensureChild at h
  split at h
  · exact Except.ok.inj h ▸ ChangedAt.refl s t
  · exact changedAt_place h

/-- Setting a child changes a tree at its segment. -/
lemma changedAt_setChild (v : Tree) (s : Segment) (t : Tree) :
    ChangedAt s t (setChild v s t).tree := by
  unfold setChild
  cases h : t.place s v with
  | ok t' => exact changedAt_place h
  | error o => exact ChangedAt.refl s t

/-- Opening a child changes a tree at its segment. -/
lemma changedAt_openChild (s : Segment) (t : Tree) : ChangedAt s t (openChild s t).tree := by
  rcases openChild_cases s t with ⟨o, hfail, -⟩ | ⟨t', hok, hensure, -⟩
  · rw [hfail]
    exact ChangedAt.refl s t
  · rw [hok]
    exact changedAt_ensureChild hensure

/-- Adding to a child changes a tree at its segment. -/
lemma changedAt_addToChild (v : Tree) (s : Segment) (t : Tree) :
    ChangedAt s t (addToChild v s t).tree := by
  rcases addToChild_cases v s t with ⟨o, hfail, -⟩ | ⟨t', items, hok, hensure, -⟩
  · rw [hfail]
    exact ChangedAt.refl s t
  · rw [hok]
    exact (changedAt_ensureChild hensure).trans (changedAt_putChild t' s _)

/-! ### Changes at locations -/

variable {T T' : Set (List Segment)}

/-- There is a null at a location that pads an array up to an index on the way to a location in `T`. -/
def Pads (t : Tree) (T : Set (List Segment)) (q : List Segment) : Prop :=
  ∃ w s s' rest, q = w ++ [s] ∧ w ++ s' :: rest ∈ T ∧ s.IndexBefore s' ∧
    (∃ items, t.at? w = some (.array items)) ∧ t.at? q = some .null

/-- Two trees are the same beside the locations in `T`, but for nulls that pad arrays up to them, and of
the same kinds above them. -/
structure Untouched (T : Set (List Segment)) (t t' : Tree) : Prop where
  kind : ∀ w u, (∀ p ∈ T, ¬ p <+: w) → t.at? w = some u → ∃ u', t'.at? w = some u' ∧ u'.kind = u.kind
  kept : ∀ q u, (∀ p ∈ T, ¬ Comparable p q) → t.at? q = some u → t'.at? q = some u
  padded : ∀ q, (∀ p ∈ T, ¬ Comparable p q) → t.at? q = none → t'.at? q = none ∨ t'.Pads T q

/-- What pads on the way to targets pads on the way to more of them. -/
lemma Pads.mono {t : Tree} {q : List Segment} (h : t.Pads T q) (hT : T ⊆ T') : t.Pads T' q := by
  obtain ⟨w, s, s', rest, hq, hmem, h⟩ := h
  exact ⟨w, s, s', rest, hq, hT hmem, h⟩

/-- A node of the kind of arrays is one. -/
lemma exists_array_of_kind {t : Tree} (h : t.kind = .array) : ∃ items, t = .array items := by
  cases t with
  | array items => exact ⟨items, rfl⟩
  | map | null | bool | number | text => exact absurd h (by simp [kind])

/-- A tree leaves itself untouched. -/
lemma Untouched.refl (T : Set (List Segment)) (t : Tree) : Untouched T t t where
  kind _ u _ h := ⟨u, h, rfl⟩
  kept _ _ _ h := h
  padded _ _ h := .inl h

/-- What is untouched beside targets is so beside more of them. -/
lemma Untouched.mono {t t' : Tree} (h : Untouched T t t') (hT : T ⊆ T') : Untouched T' t t' where
  kind w u hw hu := h.kind w u (fun p hp => hw p (hT hp)) hu
  kept q u hq hu := h.kept q u (fun p hp => hq p (hT hp)) hu
  padded q hq hnone := (h.padded q (fun p hp => hq p (hT hp)) hnone).imp id fun hpads => hpads.mono hT

/-- What two changes in turn leave alone. -/
theorem Untouched.trans {t t' t'' : Tree} (h : Untouched T t t') (h' : Untouched T t' t'') :
    Untouched T t t'' where
  kind w u hw hu := by
    obtain ⟨u', hu', hkind⟩ := h.kind w u hw hu
    obtain ⟨u'', hu'', hkind'⟩ := h'.kind w u' hw hu'
    exact ⟨u'', hu'', hkind'.trans hkind⟩
  kept q u hq hu := h'.kept q u hq (h.kept q u hq hu)
  padded q hq hnone := by
    rcases h.padded q hq hnone with hmid | ⟨w, s, s', rest, rfl, hmem, hbefore, ⟨items, hw⟩, hnull⟩
    · exact h'.padded q hq hmid
    · -- no location in `T` leads to the padded array, since it would lead to the null as well
      have habove : ∀ p ∈ T, ¬ p <+: w := fun p hp hpre =>
        hq p hp (.inl (hpre.trans (List.prefix_append w [s])))
      obtain ⟨u, hu, hkind⟩ := h'.kind w _ habove hw
      obtain ⟨items', rfl⟩ := exists_array_of_kind hkind
      exact .inr ⟨w, s, s', rest, rfl, hmem, hbefore, ⟨items', hu⟩, h'.kept _ _ hq hnull⟩

/-- Away from the child under `s` nothing changes but for nulls that pad an array. -/
lemma ChangedAt.at?_of_ne {s s' : Segment} {t t' : Tree} (h : ChangedAt s t t') (hne : s' ≠ s)
    (q rest : List Segment) :
    (∀ u, t.at? (s' :: q) = some u → t'.at? (s' :: q) = some u) ∧
      (t.at? (s' :: q) = none → t'.at? (s' :: q) = none ∨ t'.Pads {s :: rest} (s' :: q)) := by
  refine ⟨fun u hu => ?_, fun hnone => ?_⟩
  · obtain ⟨c, hc, hu⟩ := at?_cons_eq_some_iff.mp hu
    exact at?_cons_eq_some_iff.mpr ⟨c, h.kept s' c hne hc, hu⟩
  · rw [at?_cons]
    cases hc' : t'.child? s' with
    | none => exact .inl rfl
    | some c' =>
      cases hc : t.child? s' with
      | some c =>
        rw [at?_cons, hc, Option.bind_some] at hnone
        rw [← hc', h.kept s' c hne hc, Option.bind_some]
        exact .inl hnone
      | none =>
        obtain ⟨rfl, hkind, hbefore⟩ := h.padded s' c' hne hc hc'
        cases q with
        | cons x q => exact .inl rfl
        | nil =>
          obtain ⟨items, hitems⟩ := exists_array_of_kind (h.kind.trans hkind)
          exact .inr ⟨[], s', s, rest, rfl, rfl, hbefore, ⟨items, congrArg some hitems⟩,
            at?_cons_eq_some_iff.mpr ⟨_, hc', rfl⟩⟩

/-- What pads an array below a child pads it below the node. -/
lemma Pads.cons {t c : Tree} {s : Segment} {rest q : List Segment} (hc : t.child? s = some c)
    (h : c.Pads {rest} q) : t.Pads {s :: rest} (s :: q) := by
  obtain ⟨w, x, x', r, rfl, hmem, hbefore, ⟨items, hw⟩, hnull⟩ := h
  refine ⟨s :: w, x, x', r, rfl, ?_, hbefore, ⟨items, ?_⟩, ?_⟩
  · rw [List.cons_append, Set.mem_singleton_iff.mp hmem]
    rfl
  · exact at?_cons_eq_some_iff.mpr ⟨c, hc, hw⟩
  · exact at?_cons_eq_some_iff.mpr ⟨c, hc, hnull⟩

/-- What a change of the last child on the way leaves alone. -/
lemma ChangedAt.untouched {s : Segment} {t t' : Tree} (h : ChangedAt s t t') :
    Untouched {[s]} t t' := by
  have hbeside : ∀ {s' : Segment} {q : List Segment}, ¬ [s] <+: s' :: q → s' ≠ s := by
    rintro s' q hnot rfl
    exact hnot (List.cons_prefix_cons.mpr ⟨rfl, List.nil_prefix⟩)
  constructor
  · intro w u hw hu
    cases w with
    | nil => exact ⟨t', rfl, Option.some.inj hu ▸ h.kind⟩
    | cons s' q => exact ⟨u, (h.at?_of_ne (hbeside (hw _ rfl)) q []).1 u hu, rfl⟩
  · intro q u hq hu
    cases q with
    | nil => exact absurd (comparable_nil_right _) (hq _ rfl)
    | cons s' q => exact (h.at?_of_ne (hbeside fun hpre => hq _ rfl (.inl hpre)) q []).1 u hu
  · intro q hq hnone
    cases q with
    | nil => exact absurd (comparable_nil_right _) (hq _ rfl)
    | cons s' q => exact (h.at?_of_ne (hbeside fun hpre => hq _ rfl (.inl hpre)) q []).2 hnone

/-- What a change below a child leaves alone, if the node goes on below the same child, or below one that
it has not had and that is empty at first. -/
theorem ChangedAt.untouched_cons {s : Segment} {rest : List Segment} {t t' c c' : Tree}
    (h : ChangedAt s t t') (hc' : t'.child? s = some c') (hbelow : Untouched {rest} c c')
    (hc : t.child? s = some c ∨ t.child? s = none ∧ ∀ s', c.child? s' = none) :
    Untouched {s :: rest} t t' := by
  have horigin : ∀ {q : List Segment} {u : Tree}, t.at? (s :: q) = some u → c.at? q = some u := by
    intro q u hu
    obtain ⟨d, hd, hu⟩ := at?_cons_eq_some_iff.mp hu
    rcases hc with hc | ⟨hnone, -⟩
    · exact Option.some.inj (hc.symm.trans hd) ▸ hu
    · exact absurd (hnone.symm.trans hd) (by simp)
  have hbeside : ∀ {q : List Segment}, ¬ Comparable (s :: rest) (s :: q) →
      ∀ p ∈ ({rest} : Set (List Segment)), ¬ Comparable p q := by
    rintro q hq p rfl hcomp
    exact hq (comparable_cons_cons.mpr ⟨rfl, hcomp⟩)
  constructor
  · intro w u hw hu
    cases w with
    | nil => exact ⟨t', rfl, Option.some.inj hu ▸ h.kind⟩
    | cons s' q =>
      by_cases hs : s' = s
      · subst hs
        have hq : ∀ p ∈ ({rest} : Set (List Segment)), ¬ p <+: q := by
          rintro p rfl hpre
          exact hw _ rfl (List.cons_prefix_cons.mpr ⟨rfl, hpre⟩)
        obtain ⟨u', hu', hkind⟩ := hbelow.kind q u hq (horigin hu)
        exact ⟨u', at?_cons_eq_some_iff.mpr ⟨c', hc', hu'⟩, hkind⟩
      · exact ⟨u, (h.at?_of_ne hs q rest).1 u hu, rfl⟩
  · intro q u hq hu
    cases q with
    | nil => exact absurd (comparable_nil_right _) (hq _ rfl)
    | cons s' q =>
      by_cases hs : s' = s
      · subst hs
        exact at?_cons_eq_some_iff.mpr
          ⟨c', hc', hbelow.kept q u (hbeside (hq _ rfl)) (horigin hu)⟩
      · exact (h.at?_of_ne hs q rest).1 u hu
  · intro q hq hnone
    cases q with
    | nil => exact absurd (comparable_nil_right _) (hq _ rfl)
    | cons s' q =>
      by_cases hs : s' = s
      · subst hs
        have hnone' : c.at? q = none := by
          rcases hc with hc | ⟨-, hempty⟩
          · rwa [at?_cons, hc, Option.bind_some] at hnone
          · cases q with
            | nil =>
              exact absurd (comparable_cons_cons.mpr ⟨rfl, comparable_nil_right rest⟩) (hq _ rfl)
            | cons x q => rw [at?_cons, hempty x, Option.bind_none]
        rw [at?_cons, hc', Option.bind_some]
        exact (hbelow.padded q (hbeside (hq _ rfl)) hnone').imp id (Pads.cons hc')
      · exact (h.at?_of_ne hs q rest).2 hnone

/-- Putting a node at a location leaves everything beside it alone. -/
theorem untouched_putAt (t : Tree) (p : List Segment) (v : Tree) : Untouched {p} t (t.putAt p v) := by
  induction p generalizing t with
  | nil =>
    refine ⟨fun w _ hw _ => ?_, fun q _ hq _ => ?_, fun q hq _ => ?_⟩
    · exact absurd List.nil_prefix (hw _ rfl)
    · exact absurd (.inl List.nil_prefix) (hq _ rfl)
    · exact absurd (.inl List.nil_prefix) (hq _ rfl)
  | cons s rest ih =>
    cases hc : t.child? s with
    | none =>
      rw [putAt, hc]
      exact .refl _ t
    | some c =>
      rw [putAt_cons hc]
      exact (changedAt_putChild t s _).untouched_cons (child?_putChild_self hc _) (ih c) (.inl hc)

/-- A change of the node at a location leaves alone what it leaves alone in that node. -/
theorem Untouched.under {w p : List Segment} {t u u' : Tree} (h : Untouched {p} u u')
    (hu : t.at? w = some u) : Untouched {w ++ p} t (t.putAt w u') := by
  induction w generalizing t with
  | nil => exact Option.some.inj hu ▸ h
  | cons s rest ih =>
    obtain ⟨c, hc, hrest⟩ := at?_cons_eq_some_iff.mp hu
    rw [putAt_cons hc]
    exact (changedAt_putChild t s _).untouched_cons (child?_putChild_self hc _) (ih hrest) (.inl hc)

/-- The walk to a container leaves everything beside its way alone, if the change of the container
does. -/
theorem untouched_atParent {change : Segment → Tree → Outcome Obstacle}
    (hchange : ∀ s t, ChangedAt s t (change s t).tree) (p : List Segment) (t : Tree) :
    Untouched {p} t (atParent change p t).tree := by
  induction p generalizing t with
  | nil => exact .refl _ t
  | cons s rest ih =>
    cases rest with
    | nil => exact (hchange s t).untouched
    | cons next rest =>
      -- a child that is there, or that has just been created, is replaced by what the walk makes of it
      have hstep : ∀ {t' c : Tree}, ChangedAt s t t' → t'.child? s = some c →
          (t.child? s = some c ∨ t.child? s = none ∧ ∀ s', c.child? s' = none) →
          Untouched {s :: next :: rest} t
            ((atParent change (next :: rest) c).within t' [s]).tree := by
        intro t' c ht' hc horigin
        have hput : ((atParent change (next :: rest) c).within t' [s]).tree
            = t'.putChild s (atParent change (next :: rest) c).tree := putAt_cons hc [] _
        rw [hput]
        exact (ht'.trans (changedAt_putChild t' s _)).untouched_cons (child?_putChild_self hc _)
          (ih c) horigin
      rcases atParent_cons_cases change s next rest t with ⟨o, hfail, -⟩ | ⟨c, hc, hgo⟩ |
        ⟨-, hnone, t', hplace, hchild, hgo⟩
      · rw [hfail]
        exact .refl _ t
      · rw [hgo]
        exact hstep (.refl s t) hc (.inl hc)
      · rw [hgo]
        exact hstep (changedAt_place hplace) hchild (.inr ⟨hnone, child?_freshFor next⟩)

end Tree

namespace Pointer

/-- Every tree is the same as every other beside the root. -/
lemma untouched_root (t t' : Tree) : Tree.Untouched {[]} t t' := by
  have h := Tree.untouched_putAt t [] t'
  rwa [Tree.putAt] at h

/-- Opening a container leaves everything beside it alone. -/
theorem untouched_openContainer (p : Pointer) (t : Tree) :
    Tree.Untouched {p.segments} t (p.openContainer t).tree := by
  unfold openContainer
  split
  · split
    · exact .refl _ t
    · exact .refl _ t
  · exact Tree.untouched_atParent Tree.changedAt_openChild p.segments t

/-- Writing leaves everything beside the location alone. -/
theorem untouched_set (p : Pointer) (v t : Tree) :
    Tree.Untouched {p.segments} t (p.set v t).tree := by
  unfold set
  split
  · next hroot =>
    rw [isRoot_eq_true_iff.mp hroot]
    exact untouched_root t v
  · exact Tree.untouched_atParent (Tree.changedAt_setChild v) p.segments t

/-- Appending leaves everything beside the location alone. -/
theorem untouched_add (p : Pointer) (v t : Tree) :
    Tree.Untouched {p.segments} t (p.add v t).tree := by
  unfold add
  split
  · next hroot =>
    rw [isRoot_eq_true_iff.mp hroot]
    exact untouched_root t _
  · exact Tree.untouched_atParent (Tree.changedAt_addToChild v) p.segments t

end Pointer

end DocumentPath
