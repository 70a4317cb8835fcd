import Mathlib
import DocumentPath.Proofs.Displacement
import DocumentPath.Proofs.FailedChanges
import DocumentPath.Proofs.UntouchedLocations

/-!
# Copies of one location

A copy writes one place of the destination only.  The place has as many segments as the location that is
copied, but may differ from it, since the elements of an array do not keep their positions.
`Tree.LeadsTo` says which child of a container a copy goes to, and `Tree.CopiedAt` describes the tree
afterwards: the copied node is found at the place, every location beside it is as it was, and each segment
of the place is where the container leads that stood there, or the empty one that has been created.
One step of a copy adds a segment to the place (`Tree.CopiedAt.cons`), and a copy that is carried out is so
described (`Tree.exists_copiedAt_copyOver`).

A copy fails only at nodes that were there before and lie on the copied location itself: at a destination
that is no container, and at the field of a map that is none (`Tree.copyOver_error_ne_none_iff`).
`Pointer.copy_writes_one_place` puts both together.

In the empty map nothing is there to go to, so all containers on the way are created, each of the kind that
the next segment calls for.  The place is then known beforehand, and it is not the copied location if a segment
after the first is an index other than 0 (`Pointer.copy_into_empty`).
-/

namespace DocumentPath

/-- Nothing is on record below a location of the source. -/
def Placement.Unused (pl : Placement) (w : List Segment) : Prop := ∀ e, e ≠ [] → pl.get? (w ++ e) = none

namespace Placement

/-- Nothing is on record at first. -/
lemma unused_empty (w : List Segment) : empty.Unused w := fun _ _ => rfl

variable {pl : Placement} {w : List Segment}

/-- Where nothing is on record below a location, nothing is below its children. -/
lemma Unused.child (h : pl.Unused w) (s : Segment) : pl.Unused (w ++ [s]) := fun e _ => by
  rw [List.append_assoc]
  exact h _ (by simp)

/-- A child that is recorded is not below itself. -/
lemma Unused.record (h : pl.Unused w) (s : Segment) (i : ℕ) :
    (pl.record (w ++ [s]) i).Unused (w ++ [s]) := fun e he => by
  rw [get?_record_of_ne pl fun heq => he (List.append_right_eq_self.mp heq.symm)]
  exact h.child s e he

end Placement

namespace Segment

/-- A segment that is 0 or no index leads first itself. -/
lemma leading_eq_self {s : Segment} (h : ∀ i, s.index? = some i → i = 0) : s.leading = s := by
  cases hs : s.index? with
  | none => rw [leading, isIndex, hs, Option.isSome_none, if_neg Bool.false_ne_true]
  | some i => rw [leading_of_index? hs, eq_ofIndex_of_index? hs, h i hs]

/-- A segment that is its own leading one is no index but 0. -/
lemma index?_eq_zero_of_leading_eq_self {s : Segment} (h : s.leading = s) {i : ℕ}
    (hs : s.index? = some i) : i = 0 := by
  rw [leading_of_index? hs] at h
  rw [← h, index?_ofIndex_zero] at hs
  exact (Option.some.inj hs).symm

end Segment

namespace Tree

/-! ### Where a copy goes -/

/-- The child of a container to which a copy goes whose path has the segment `s` and then `rest`: in a map
the field of that key, in an array the element of that index, if it is there and can be gone on below, and
else a new element at the end. -/
inductive LeadsTo (s : Segment) (rest : List Segment) : Tree → Segment → Prop
  | field (fields : List (String × Tree)) : LeadsTo s rest (.map fields) s
  | element {items : List Tree} {e : Tree} (he : (Tree.array items).child? s = some e)
    (hready : ready rest e = true) : LeadsTo s rest (.array items) s
  | append {items : List Tree}
    (h : ∀ e, (Tree.array items).child? s = some e → ready rest e = false) :
    LeadsTo s rest (.array items) (.ofIndex items.length)

/-- What a copy along `p` makes of a tree if it lands at `d`. -/
structure CopiedAt (p d : List Segment) (v t t' : Tree) : Prop where
  /-- The place has as many segments as the path. -/
  length : d.length = p.length
  /-- The copied node is there. -/
  copied : t'.at? d = some v
  /-- Everything beside the place is as it was. -/
  beside : ∀ q, ¬ Comparable d q → t'.at? q = t.at? q
  /-- Each segment of the place is where the container leads that stood there, or that the segment of the
  path calls for if there was none. -/
  leads : ∀ i s s', p[i]? = some s → d[i]? = some s' → ∃ u, t'.at? (d.take i) = some u ∧
    u.kind = ((t.at? (d.take i)).getD (freshFor s)).kind ∧
    LeadsTo s (p.drop (i + 1)) ((t.at? (d.take i)).getD (freshFor s)) s'

/-- The field or element from which a copy goes on is the child of the container, or else what is put in
its place. -/
def Continues (t : Tree) (s : Segment) (rest : List Segment) (c : Tree) : Prop :=
  t.child? s = some c ∨ t.child? s = none ∧ c = freshAlong rest

/-- A new container is empty. -/
lemma children_freshAlong (rest : List Segment) : (freshAlong rest).children = [] := by
  cases rest with
  | nil => rfl
  | cons next rest =>
    rw [freshAlong, freshFor]
    split <;> rfl

/-- Beside a child from which a copy goes on a node has what is below that child. -/
lemma Continues.at?_cons {t c : Tree} {s : Segment} {rest q : List Segment} (h : t.Continues s rest c)
    (hq : q ≠ []) : t.at? (s :: q) = c.at? q := by
  rcases h with hc | ⟨hnone, rfl⟩
  · rw [Tree.at?_cons, hc, Option.bind_some]
  · obtain ⟨x, q, rfl⟩ := List.ne_nil_iff_exists_cons.mp hq
    rw [Tree.at?_cons, hnone, Option.bind_none, Tree.at?_cons,
      child?_of_childless (children_freshAlong rest), Option.bind_none]

/-- A step of a copy: it goes to the child `s'`, changes nothing else, and goes on there. -/
lemma CopiedAt.cons {s s' : Segment} {rest d : List Segment} {v t t' c c' : Tree}
    (hleads : LeadsTo s rest t s') (hkind : t'.kind = t.kind) (hbefore : t.Continues s' rest c)
    (hafter : t'.child? s' = some c') (hother : ∀ x, x ≠ s' → t'.child? x = t.child? x)
    (h : CopiedAt rest d v c c') : CopiedAt (s :: rest) (s' :: d) v t t' where
  length := congrArg (· + 1) h.length
  copied := at?_cons_eq_some_iff.mpr ⟨c', hafter, h.copied⟩
  beside q hq := by
    cases q with
    | nil => exact absurd (comparable_nil_right _) hq
    | cons x q =>
      by_cases hx : x = s'
      · subst hx
        have hbelow : ¬ Comparable d q := fun hcomp => hq (comparable_cons_cons.mpr ⟨rfl, hcomp⟩)
        have hne : q ≠ [] := fun hnil => hbelow (hnil ▸ comparable_nil_right d)
        rw [at?_cons, hafter, Option.bind_some, h.beside q hbelow, hbefore.at?_cons hne]
      · rw [at?_cons, at?_cons, hother x hx]
  leads i x x' hx hx' := by
    cases i with
    | zero =>
      obtain rfl := Option.some.inj hx
      obtain rfl := Option.some.inj hx'
      exact ⟨t', rfl, hkind, hleads⟩
    | succ i =>
      obtain ⟨u, hu, hukind, hlead⟩ := h.leads i x x' hx hx'
      -- what stands there, or is created, is the same seen from the child
      have hsame : (t.at? (s' :: d.take i)).getD (freshFor x) = (c.at? (d.take i)).getD (freshFor x) := by
        cases i with
        | zero =>
          have hnext : freshAlong rest = freshFor x := by
            cases rest with
            | nil => exact absurd hx (by simp)
            | cons y rest => exact congrArg freshFor (Option.some.inj hx)
          rw [List.take_zero, at?_singleton, at?_nil, Option.getD_some]
          rcases hbefore with hc | ⟨hnone, rfl⟩
          · rw [hc, Option.getD_some]
          · rw [hnone, Option.getD_none, hnext]
        | succ i =>
          have hne : d.take (i + 1) ≠ [] := by
            rintro hnil
            rw [List.take_eq_nil_iff] at hnil
            rcases hnil with hzero | rfl
            · exact absurd hzero (by simp)
            · exact absurd hx' (by simp)
          rw [hbefore.at?_cons hne]
      refine ⟨u, at?_cons_eq_some_iff.mpr ⟨c', hafter, hu⟩, ?_, ?_⟩
      · rw [List.take_succ_cons, hsame]
        exact hukind
      · rw [List.take_succ_cons, hsame]
        exact hlead

/-! ### The steps -/

/-- Every array of the tree has room for one more element that has an index, as in every document in memory. -/
def Roomy (t : Tree) : Prop :=
  ∀ u ∈ t.nodes, u.kind = .array → u.children.length < Segment.indexBound

instance (t : Tree) : Decidable t.Roomy :=
  inferInstanceAs (Decidable (∀ u ∈ t.nodes, u.kind = .array → u.children.length < Segment.indexBound))

/-- The children of a roomy tree are roomy. -/
lemma Roomy.child {t c : Tree} (h : t.Roomy) (hc : c ∈ t.children) : c.Roomy := fun u hu => by
  refine h u ?_
  rw [nodes_eq]
  exact List.mem_cons_of_mem _ (List.mem_flatMap.mpr ⟨c, hc, hu⟩)

/-- A node without children is roomy. -/
lemma roomy_of_childless {t : Tree} (h : t.children = []) : t.Roomy := by
  intro u hu _
  rw [nodes_eq, h, List.flatMap_nil, List.mem_singleton] at hu
  rw [hu, h]
  simp [Segment.indexBound]

/-- A copy goes on in a roomy tree. -/
lemma Continues.roomy {t c : Tree} {s : Segment} {rest : List Segment} (h : t.Continues s rest c)
    (ht : t.Roomy) : c.Roomy := by
  rcases h with hc | ⟨-, rfl⟩
  · exact ht.child (mem_children_of_child? hc)
  · exact roomy_of_childless (children_freshAlong rest)

section Steps

variable {pl : Placement} {w rest : List Segment} {s : Segment} {items : List Tree}

/-- Without a record an element has its own index, if the copy can go on there. -/
lemma seat?_of_unused (h : pl.Unused w) : seat? pl (w ++ [s]) s rest items
    = s.index?.filter fun i => (items[i]?.map (ready rest)).getD false := by
  rw [seat?, slot?, h [s] (by simp), Option.none_or]

/-- Without a record a copy reuses the element that the segment names. -/
lemma exists_of_seat?_eq_some (h : pl.Unused w) {i : ℕ}
    (hseat : seat? pl (w ++ [s]) s rest items = some i) : s.index? = some i ∧
      ∃ e, items[i]? = some e ∧ (Tree.array items).child? s = some e ∧ ready rest e = true := by
  rw [seat?_of_unused h, Option.filter_eq_some_iff] at hseat
  obtain ⟨hi, hready⟩ := hseat
  refine ⟨hi, ?_⟩
  cases he : items[i]? with
  | none => simp [he] at hready
  | some e =>
    refine ⟨e, rfl, ?_, by simpa [he] using hready⟩
    rw [child?, hi, Option.bind_some]
    exact he

/-- Without a record a copy adds an element if it cannot go on below the one that the segment names. -/
lemma ready_eq_false_of_seat?_eq_none (h : pl.Unused w)
    (hseat : seat? pl (w ++ [s]) s rest items = none) {e : Tree}
    (he : (Tree.array items).child? s = some e) : ready rest e = false := by
  obtain ⟨i, hi, hget⟩ := Option.bind_eq_some_iff.mp he
  have hget' : items[i]? = some e := hget
  rw [seat?_of_unused h, hi, Option.filter_eq_none_iff] at hseat
  simpa [hget'] using hseat i rfl

/-- A copy goes on in the field of a map. -/
lemma continues_field (fields : List (String × Tree)) (s : Segment) (rest : List Segment) :
    (Tree.map fields).Continues s rest (fieldAlong fields s rest) := by
  unfold Continues fieldAlong
  cases hc : Entries.get? fields s.key with
  | some c => exact .inl hc
  | none => exact .inr ⟨hc, rfl⟩

/-- The element that has been set is found. -/
lemma child?_set {i : ℕ} (hs : s.index? = some i) (hi : i < items.length) (x : Tree) :
    (Tree.array (items.set i x)).child? s = some x := by
  rw [child?, hs, Option.bind_some]
  exact List.getElem?_set_self hi

/-- Setting an element changes no other. -/
lemma child?_set_of_ne {i : ℕ} (hs : s.index? = some i) (x : Tree) {s' : Segment} (hne : s' ≠ s) :
    (Tree.array (items.set i x)).child? s' = (Tree.array items).child? s' := by
  rw [child?, child?]
  cases hj : s'.index? with
  | none => rfl
  | some j => exact List.getElem?_set_ne (Segment.index?_ne hne.symm hs hj)

/-- Behind the last element of an array there is none. -/
lemma child?_ofIndex_length (hlen : items.length < Segment.indexBound) :
    (Tree.array items).child? (.ofIndex items.length) = none := by
  rw [child?, Segment.index?_ofIndex hlen, Option.bind_some]
  exact List.getElem?_eq_none le_rfl

/-- The element that has been appended is found. -/
lemma child?_append_self (hlen : items.length < Segment.indexBound) (x : Tree) :
    (Tree.array (items ++ [x])).child? (.ofIndex items.length) = some x := by
  rw [child?, Segment.index?_ofIndex hlen, Option.bind_some]
  exact List.getElem?_concat_length

/-- Appending an element changes no other. -/
lemma child?_append_of_ne (x : Tree) {s' : Segment} (hne : s' ≠ .ofIndex items.length) :
    (Tree.array (items ++ [x])).child? s' = (Tree.array items).child? s' := by
  rw [child?, child?]
  cases hj : s'.index? with
  | none => rfl
  | some j =>
    have hj' : j ≠ items.length := by
      rintro rfl
      exact hne (Segment.eq_ofIndex_of_index? hj)
    rw [Option.bind_some, Option.bind_some, element?, element?]
    rcases Nat.lt_or_gt_of_ne hj' with hlt | hgt
    · exact List.getElem?_append_left hlt
    · rw [List.getElem?_eq_none hgt.le, List.getElem?_eq_none (by simpa using hgt)]

end Steps

/-- A copy that is carried out lands somewhere. -/
theorem exists_copiedAt_copyOver {v : Tree} {w p : List Segment} {pl : Placement}
    (hpl : pl.Unused w) {t : Tree} (ht : t.Roomy) (hok : (copyOver v w p pl t).1.error = none) :
    ∃ d, CopiedAt p d v t (copyOver v w p pl t).1.tree := by
  induction p generalizing w pl t with
  | nil =>
    refine ⟨[], rfl, rfl, fun q hq => absurd (.inl List.nil_prefix) hq, ?_⟩
    intro i s s' hs
    exact absurd hs (by simp)
  | cons s rest ih =>
    rcases copyOver_cons_cases v w s rest pl t with ⟨_, hfail⟩ | ⟨fields, rfl, hready⟩ |
      ⟨items, i, rfl, hseat⟩ | ⟨items, rfl, hseat⟩
    · rw [hfail] at hok
      exact absurd hok (by simp [Outcome.fail])
    · rw [copyOver_map v w pl hready] at hok ⊢
      have hbefore := continues_field fields s rest
      obtain ⟨d, hd⟩ := ih (hpl.child s) (hbefore.roomy ht) hok
      refine ⟨s :: d, .cons (.field fields) rfl hbefore ?_ (fun x hx => ?_) hd⟩
      · exact Entries.get?_insert_self _ _ _
      · exact Entries.get?_insert_of_ne _ (fun hk => hx (congrArg Segment.mk hk.symm)) _
    · obtain ⟨hi, e, he, hchild, hready⟩ := exists_of_seat?_eq_some hpl hseat
      rw [copyOver_array_reused v w pl hseat, he, Option.getD_some] at hok ⊢
      obtain ⟨d, hd⟩ := ih (hpl.record s i) (ht.child (mem_children_of_child? hchild)) hok
      refine ⟨s :: d, .cons (.element hchild hready) rfl (.inl hchild) ?_ (fun x hx => ?_) hd⟩
      · exact child?_set hi (lt_length_of_seat? hseat) _
      · exact child?_set_of_ne hi _ hx
    · rw [copyOver_array_new v w pl hseat] at hok ⊢
      have hlen : items.length < Segment.indexBound := by
        refine ht (.array items) ?_ rfl
        rw [nodes_eq]
        exact List.mem_cons_self
      have hbefore : (Tree.array items).Continues (.ofIndex items.length) rest (freshAlong rest) :=
        .inr ⟨child?_ofIndex_length hlen, rfl⟩
      obtain ⟨d, hd⟩ := ih (hpl.record s items.length) (hbefore.roomy ht) hok
      refine ⟨.ofIndex items.length :: d, .cons (.append fun e he => ?_) rfl hbefore ?_
        (fun x hx => ?_) hd⟩
      · exact ready_eq_false_of_seat?_eq_none hpl hseat he
      · exact child?_append_self hlen _
      · exact child?_append_of_ne _ hx

/-! ### Where a copy fails -/

/-- Before the last segment of the location it goes through the field of a map, and that is no container. -/
def Blocks (t : Tree) (p : List Segment) : Prop := ∃ w s rest fields c, p = w ++ s :: rest ∧ rest ≠ [] ∧
  t.at? w = some (.map fields) ∧ t.at? (w ++ [s]) = some c ∧ c.isContainer = false

/-- A copy cannot go on at a node that is no container. -/
lemma ready_eq_false_iff {rest : List Segment} {c : Tree} :
    ready rest c = false ↔ rest ≠ [] ∧ c.isContainer = false := by
  cases rest with
  | nil => simp
  | cons s rest => simp [ready_cons]

/-- Nothing blocks a copy to the root. -/
lemma not_blocks_nil (t : Tree) : ¬ t.Blocks [] := by
  rintro ⟨w, s, rest, -, -, hp, -⟩
  exact absurd hp (by simp)

/-- The field that blocks a location is the first one on the way, or is met below the first child. -/
lemma blocks_cons_iff {t : Tree} {s : Segment} {rest : List Segment} : t.Blocks (s :: rest) ↔
    (∃ fields c, t = .map fields ∧ t.child? s = some c ∧ ready rest c = false) ∨
      ∃ c, t.child? s = some c ∧ c.Blocks rest := by
  constructor
  · rintro ⟨w, x, r, fields, c, hp, hr, hw, hc, hcont⟩
    cases w with
    | nil =>
      obtain ⟨rfl, rfl⟩ := List.cons.inj hp
      rw [List.nil_append, at?_singleton] at hc
      exact .inl ⟨fields, c, Option.some.inj hw, hc, ready_eq_false_iff.mpr ⟨hr, hcont⟩⟩
    | cons y w =>
      obtain ⟨rfl, hrest⟩ := List.cons.inj hp
      obtain ⟨d, hd, hw⟩ := at?_cons_eq_some_iff.mp hw
      rw [List.cons_append, at?_cons, hd, Option.bind_some] at hc
      exact .inr ⟨d, hd, w, x, r, fields, c, hrest, hr, hw, hc, hcont⟩
  · rintro (⟨fields, c, rfl, hc, hready⟩ | ⟨d, hd, w, x, r, fields, c, rfl, hr, hw, hc, hcont⟩)
    · obtain ⟨hr, hcont⟩ := ready_eq_false_iff.mp hready
      exact ⟨[], s, rest, fields, c, rfl, hr, rfl, (at?_singleton _ s).trans hc, hcont⟩
    · refine ⟨s :: w, x, r, fields, c, rfl, hr, at?_cons_eq_some_iff.mpr ⟨d, hd, hw⟩, ?_, hcont⟩
      exact at?_cons_eq_some_iff.mpr ⟨d, hd, hc⟩

/-- What blocks a location through a child that can be gone on below is met below it. -/
lemma blocks_cons_of_ready {t c : Tree} {s : Segment} {rest : List Segment} (hc : t.child? s = some c)
    (hready : ready rest c = true) : t.Blocks (s :: rest) ↔ c.Blocks rest := by
  rw [blocks_cons_iff, hc]
  simp [hready]

/-- A node that is no container has no children. -/
lemma children_of_not_isContainer {t : Tree} (h : t.isContainer = false) : t.children = [] := by
  cases t with
  | array | map => exact absurd h (by simp [isContainer, kind, Kind.isContainer])
  | null | bool | number | text => rfl

/-- A value has no field that blocks, and neither has a container just created. -/
lemma not_blocks_of_childless {t : Tree} (h : t.children = []) (p : List Segment) : ¬ t.Blocks p := by
  cases p with
  | nil => exact not_blocks_nil t
  | cons s rest => simp [blocks_cons_iff, child?_of_childless h]

/-- An element that a copy does not go on below does not block it. -/
lemma not_blocks_cons_of_not_ready {items : List Tree} {s : Segment} {rest : List Segment}
    (h : ∀ c, (Tree.array items).child? s = some c → ready rest c = false) :
    ¬ (Tree.array items).Blocks (s :: rest) := by
  rw [blocks_cons_iff]
  rintro (⟨fields, c, hmap, -, -⟩ | ⟨c, hc, hblocks⟩)
  · exact absurd hmap (by simp)
  · obtain ⟨-, hcont⟩ := ready_eq_false_iff.mp (h c hc)
    exact not_blocks_of_childless (children_of_not_isContainer hcont) rest hblocks

/-- A copy fails at a destination that is no container, and at the field of a map that is none. -/
theorem copyOver_error_ne_none_iff {v : Tree} {w p : List Segment} {pl : Placement}
    (hpl : pl.Unused w) (t : Tree) :
    (copyOver v w p pl t).1.error ≠ none ↔ ready p t = false ∨ t.Blocks p := by
  induction p generalizing w pl t with
  | nil => simp [Outcome.ok, not_blocks_nil]
  | cons s rest ih =>
    -- below a child of `t` that can be gone on from only what blocks can stop the copy
    have hbelow : ∀ {c : Tree} {pl₁ : Placement}, t.isContainer = true → pl₁.Unused (w ++ [s]) →
        t.child? s = some c → ready rest c = true →
        ((copyOver v (w ++ [s]) rest pl₁ c).1.error ≠ none ↔
          ready (s :: rest) t = false ∨ t.Blocks (s :: rest)) := by
      intro c pl₁ ht hpl₁ hc hready
      rw [ih hpl₁, blocks_cons_of_ready hc hready, ready_cons, hready, ht]
    have hfresh : ∀ {pl₁ : Placement}, t.isContainer = true → ¬ t.Blocks (s :: rest) →
        ((copyOver v (w ++ [s]) rest pl₁ (freshAlong rest)).1.error ≠ none ↔
          ready (s :: rest) t = false ∨ t.Blocks (s :: rest)) := by
      intro pl₁ ht hnot
      rw [copyOver_freshAlong_error, ready_cons, ht]
      simp [hnot]
    cases hcont : t.isContainer with
    | false =>
      obtain ⟨e, hfail⟩ := copyOver_value v w s rest pl hcont
      rw [hfail]
      exact iff_of_true (by simp [Outcome.fail]) (.inl hcont)
    | true =>
      cases t with
      | map fields =>
        have hfield := continues_field fields s rest
        cases hready : ready rest (fieldAlong fields s rest) with
        | false =>
          rw [copyOver_map_not_ready v w pl hready]
          refine iff_of_true (by simp [Outcome.fail]) (.inr ?_)
          rcases hfield with hc | ⟨-, hnew⟩
          · exact blocks_cons_iff.mpr (.inl ⟨fields, _, rfl, hc, hready⟩)
          · rw [hnew, ready_freshAlong] at hready
            exact absurd hready (by simp)
        | true =>
          rw [copyOver_map v w pl hready]
          rcases hfield with hc | ⟨hnone, hnew⟩
          · exact hbelow hcont (hpl.child s) hc hready
          · rw [hnew]
            exact hfresh hcont (by simp [blocks_cons_iff, hnone])
      | array items =>
        cases hseat : seat? pl (w ++ [s]) s rest items with
        | some i =>
          obtain ⟨-, e, he, hc, hready⟩ := exists_of_seat?_eq_some hpl hseat
          rw [copyOver_array_reused v w pl hseat, he, Option.getD_some]
          exact hbelow hcont (hpl.record s i) hc hready
        | none =>
          rw [copyOver_array_new v w pl hseat]
          exact hfresh hcont (not_blocks_cons_of_not_ready fun c hc =>
            ready_eq_false_of_seat?_eq_none hpl hseat hc)
      | null | bool | number | text => exact absurd hcont (by simp [isContainer, kind, Kind.isContainer])

/-! ### Copies into nothing -/

/-- What a copy leaves where there was nothing has one child. -/
lemma child?_chain (s : Segment) (rest : List Segment) (v : Tree) (x : Segment) :
    (chain (s :: rest) v).child? x = if x = s.leading then some (chain rest v) else none := by
  rw [chain, Segment.leading]
  cases s.isIndex with
  | true =>
    rw [if_pos rfl, if_pos rfl]
    split
    · next hx =>
      rw [hx, child?, Segment.index?_ofIndex_zero]
      rfl
    · next hx =>
      rw [child?]
      cases hj : x.index? with
      | none => rfl
      | some j =>
        have hj' : j ≠ 0 := by
          rintro rfl
          exact hx (Segment.eq_ofIndex_of_index? hj)
        exact List.getElem?_eq_none (Nat.one_le_iff_ne_zero.mpr hj')
  | false =>
    rw [if_neg Bool.false_ne_true, if_neg Bool.false_ne_true]
    by_cases hx : x = s
    · simp [hx, child?, field?, Entries.get?]
    · have hkey : s.key ≠ x.key := fun h => hx (congrArg Segment.mk h).symm
      simp [hx, child?, field?, Entries.get?, hkey]

/-- Of all ways as long as that of the copy only its own leads to the copied node, and the others lead
nowhere. -/
lemma at?_chain {p q : List Segment} (hlen : q.length = p.length) (v : Tree) :
    (chain p v).at? q = if q = p.map Segment.leading then some v else none := by
  induction p generalizing q with
  | nil =>
    rw [List.length_eq_zero_iff.mp hlen]
    rfl
  | cons s rest ih =>
    obtain ⟨x, q, rfl⟩ := List.exists_cons_of_length_eq_add_one hlen
    rw [at?_cons, child?_chain, List.map_cons]
    by_cases hx : x = s.leading
    · simp [hx, ih (Nat.succ_injective hlen)]
    · simp [hx]

/-- A copy into the empty map leaves nothing but its way. -/
lemma copyOver_map_nil (v : Tree) (s : Segment) (rest : List Segment) :
    (copyOver v [] (s :: rest) .empty (.map [])).1 = .ok (.map [(s.key, chain rest v)]) := by
  have hfresh : (copyOver v [s] rest .empty (freshAlong rest)).1 = .ok (chain rest v) :=
    (copyOver_freshAlong v .empty fun _ _ _ => rfl).1
  have hfield : fieldAlong [] s rest = freshAlong rest := rfl
  rw [copyOver_map v [] .empty (ready_freshAlong rest), hfield, List.nil_append, hfresh]
  rfl

end Tree

namespace Pointer

variable {p : Pointer} {source v : Tree} {filter : Option Filter}

/-- A single copy runs under an empty placement. -/
lemma copy_eq_copyOver (hp : p.isRoot = false) (hv : p.at? source = some v)
    (hfilter : filter.all (·.accepts v) = true) (t : Tree) :
    p.copy source filter t
      = (Tree.copyOver v [] p.segments .empty t).1.mapError (·.at p) := by
  have hoffers : source.offers filter p.segments = true :=
    Tree.offers_eq_true_iff.mpr ⟨v, hv, hfilter⟩
  exact congrArg Prod.fst
    (copyPlaced_of_offers hv hoffers (ne_nil_of_isRoot_eq_false hp) .empty t)

/-- A copy that is carried out writes one place: there is a location with as many segments as the one that
is copied, at which the copied node is found, and every location beside it is as it was.  Each of its
segments is that of the copied location, unless the container is an array and has no such element, or none
that the copy can go on below: then it is the index behind the last element.  A copy fails exactly if the
destination is no container, or if the location goes on below the field of a map that is none. -/
theorem copy_writes_one_place (hp : p.isRoot = false) (hv : p.at? source = some v)
    (hfilter : filter.all (·.accepts v) = true) (t : Tree) :
    (t.Roomy → (p.copy source filter t).error = none →
        ∃ d, Tree.CopiedAt p.segments d v t (p.copy source filter t).tree) ∧
      ((p.copy source filter t).error ≠ none ↔ t.isContainer = false ∨ t.Blocks p.segments) := by
  rw [copy_eq_copyOver hp hv hfilter]
  have herror : ∀ o : Outcome Obstacle, (o.mapError (·.at p)).error = none ↔ o.error = none := by
    intro o
    rw [Outcome.mapError, Option.map_eq_none_iff]
  have hunused := Placement.unused_empty []
  constructor
  · exact fun ht hok => Tree.exists_copiedAt_copyOver hunused ht ((herror _).mp hok)
  · rw [ne_eq, herror, ← ne_eq, Tree.copyOver_error_ne_none_iff hunused, Tree.ready_eq_false_iff]
    exact or_congr_left (and_iff_right (ne_nil_of_isRoot_eq_false hp))

/-- Copying through `/a/0/b` into `{"a": [true]}` does not go on below the element and adds one, and copying
into `{"a": 1}` fails. -/
theorem copy_writes_one_place_behind : ∃ (p : Pointer) (source t t' : Tree), p.text = "/a/0/b" ∧
    t = .map [("a", .array [.bool true])] ∧ t' = .map [("a", .number (.int 1))] ∧
    p.at? source = some .null ∧ (p.copy source none t).error = none ∧
    (p.copy source none t).tree = .map [("a", .array [.bool true, .map [("b", .null)]])] ∧
    (∃ d, Tree.CopiedAt p.segments d .null t (p.copy source none t).tree) ∧
    (p.copy source none t').error ≠ none := by
  let p : Pointer := ⟨[⟨"a"⟩, ⟨"0"⟩, ⟨"b"⟩]⟩
  let source : Tree := .map [("a", .array [.map [("b", .null)]])]
  have hroomy : (Tree.map [("a", .array [.bool true])]).Roomy := by decide
  have hv : p.at? source = some .null := by decide
  have haccepts : (none : Option Filter).all (·.accepts .null) = true := rfl
  refine ⟨p, source, _, _, by decide, rfl, rfl, hv, by decide, by decide, ?_, ?_⟩
  · exact (copy_writes_one_place rfl hv haccepts _).1 hroomy (by decide)
  · refine (copy_writes_one_place rfl hv haccepts _).2.mpr (.inr ?_)
    exact ⟨[], ⟨"a"⟩, [⟨"0"⟩, ⟨"b"⟩], _, _, rfl, by simp, rfl, rfl, rfl⟩

/-- The location at which a copy lands that starts from an empty map. -/
def leading (p : Pointer) : Pointer := ⟨p.segments.take 1 ++ (p.segments.drop 1).map Segment.leading⟩

/-- A copy into the empty map is carried out, and the copied node is found at the location with every index
after the first segment replaced by 0.  So the location that has been copied leads to it if no segment after
the first is another index, and to nothing otherwise. -/
theorem copy_into_empty (hp : p.isRoot = false) (hv : p.at? source = some v) :
    (p.copy source none (.map [])).error = none ∧
      p.leading.at? (p.copy source none (.map [])).tree = some v ∧
      ((∀ s ∈ p.segments.drop 1, ∀ i, s.index? = some i → i = 0) →
        p.at? (p.copy source none (.map [])).tree = some v) ∧
      ((∃ s ∈ p.segments.drop 1, ∃ i, s.index? = some i ∧ i ≠ 0) →
        p.at? (p.copy source none (.map [])).tree = none) := by
  rw [copy_eq_copyOver hp hv rfl]
  obtain ⟨segments⟩ := p
  obtain ⟨s, rest, rfl⟩ := List.ne_nil_iff_exists_cons.mp (ne_nil_of_isRoot_eq_false hp)
  rw [Tree.copyOver_map_nil]
  have hat : ∀ q, q.length = rest.length → (Tree.map [(s.key, Tree.chain rest v)]).at? (s :: q)
      = if q = rest.map Segment.leading then some v else none := by
    intro q hq
    have hchild : (Tree.map [(s.key, Tree.chain rest v)]).child? s = some (Tree.chain rest v) := by
      simp [Tree.child?, Tree.field?, Entries.get?]
    rw [Tree.at?_cons, hchild, Option.bind_some, Tree.at?_chain hq]
  have hself : (Tree.map [(s.key, Tree.chain rest v)]).at? (s :: rest)
      = if rest = rest.map Segment.leading then some v else none := hat rest rfl
  have hsame : rest.map Segment.leading = rest ↔ ∀ x ∈ rest, x.leading = x := by
    conv_lhs => rhs; rw [← List.map_id rest]
    exact List.map_inj_left
  refine ⟨rfl, ?_, fun hzero => ?_, fun hother => ?_⟩
  · exact (hat _ (List.length_map _)).trans (if_pos rfl)
  · refine hself.trans (if_pos (hsame.mpr fun x hx => ?_).symm)
    exact Segment.leading_eq_self (hzero x hx)
  · obtain ⟨x, hx, i, hi, hne⟩ := hother
    refine hself.trans (if_neg fun heq => hne ?_)
    exact Segment.index?_eq_zero_of_leading_eq_self (hsame.mp heq.symm x hx) hi

/-- A copy of `/a/0/b` into the empty map stays where it was. -/
theorem copy_into_empty_first_index : ∃ (p : Pointer) (source : Tree), p.text = "/a/0/b" ∧
    source = .map [("a", .map [("0", .map [("b", .number (.int 1))])])] ∧
    p.isRoot = false ∧ p.at? source = some (.number (.int 1)) ∧
    (p.copy source none (.map [])).error = none ∧
    p.at? (p.copy source none (.map [])).tree = some (.number (.int 1)) := by
  let p : Pointer := ⟨[⟨"a"⟩, ⟨"0"⟩, ⟨"b"⟩]⟩
  let source : Tree := .map [("a", .map [("0", .map [("b", .number (.int 1))])])]
  have hv : p.at? source = some (.number (.int 1)) := by decide
  obtain ⟨hok, -, hkept, -⟩ := copy_into_empty (p := p) rfl hv
  refine ⟨p, source, by decide, rfl, rfl, hv, hok, hkept fun s hs i hi => ?_⟩
  rcases List.mem_cons.mp hs with rfl | hs
  · exact Option.some.inj (hi.symm.trans (by decide))
  · obtain rfl := List.mem_singleton.mp hs
    have hplain : (⟨"b"⟩ : Segment).index? = none := by decide
    exact absurd (hplain.symm.trans hi) (by simp)

/-- A copy of `/a/5/b` through maps into the empty map makes an array of the map at `/a`, and `/a/5/b` leads to
nothing there. -/
theorem copy_into_empty_other_index : ∃ (p : Pointer) (source : Tree), p.text = "/a/5/b" ∧
    source = .map [("a", .map [("5", .map [("b", .number (.int 1))])])] ∧
    p.isRoot = false ∧ p.at? source = some (.number (.int 1)) ∧
    (∀ i < p.segments.length, (source.at? (p.segments.take i)).map Tree.kind = some .map) ∧
    (p.copy source none (.map [])).error = none ∧
    (p.copy source none (.map [])).tree = .map [("a", .array [.map [("b", .number (.int 1))]])] ∧
    p.at? (p.copy source none (.map [])).tree = none :=
  ⟨⟨[⟨"a"⟩, ⟨"5"⟩, ⟨"b"⟩]⟩, _, by decide, rfl, rfl, by decide, by decide, by decide, by decide, by decide⟩

end Pointer

end DocumentPath
