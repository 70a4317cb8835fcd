import Mathlib
import DocumentPath.Proofs.Displacement
import DocumentPath.Proofs.ElementsApart

/-!
# Elements that come together

A copy through any selector with a descent can bring two elements of an array of the source to one element
of the destination (`Selector.exists_not_keepsElementsApart`): a descent leads to all nodes below the end
of what stands before it, and there `Tree.trap` holds the source of the three copies of
`Tree.Displaced`, with what stands after the descent laid out below each of them.  So a selector keeps the
elements of all arrays apart exactly if it has no descent (`Selector.forall_keepsElementsApart_iff`).
-/

namespace DocumentPath

namespace Tree

/-! ### The source -/

/-- A node with nothing above it but maps. -/
def nest : List Segment → Tree → Tree
  | [], t => t
  | s :: rest, t => .map [(s.key, nest rest t)]

/-- The first segment of its path leads into a nested tree. -/
lemma child?_nest_cons (s : Segment) (p : List Segment) (t : Tree) :
    (nest (s :: p) t).child? s = some (nest p t) := by
  simp [nest, child?, field?, Entries.get?]

/-- Below its path a nested tree is the tree that is nested. -/
lemma at?_nest_append (p q : List Segment) (t : Tree) : (nest p t).at? (p ++ q) = t.at? q := by
  induction p with
  | nil => rfl
  | cons s p ih => rw [List.cons_append, at?_cons, child?_nest_cons, Option.bind_some, ih]

/-- A nested tree is found at its path. -/
lemma at?_nest (p : List Segment) (t : Tree) : (nest p t).at? p = some t := by
  simpa using at?_nest_append p [] t

/-- Only maps are found above the end of a nest. -/
lemma at?_nest_cases {p q : List Segment} {t v : Tree} (h : (nest p t).at? q = some v) :
    v.kind = .map ∨ ∃ r, q = p ++ r ∧ t.at? r = some v := by
  induction p generalizing q with
  | nil => exact .inr ⟨q, rfl, h⟩
  | cons s p ih =>
    cases q with
    | nil =>
      rw [← Option.some.inj h]
      exact .inl rfl
    | cons s' q =>
      obtain ⟨c, hc, hq⟩ := at?_cons_eq_some_iff.mp h
      have hs : s' = s := by
        by_contra hne
        have hkey : s.key ≠ s'.key := fun heq => hne (congrArg Segment.mk heq).symm
        simp [nest, child?, field?, Entries.get?, hkey] at hc
      subst hs
      rw [child?_nest_cons, Option.some_inj] at hc
      subst hc
      rcases ih hq with hkind | ⟨r, rfl, hv⟩
      · exact .inl hkind
      · exact .inr ⟨r, rfl, hv⟩

/-- A node without children has only itself to find. -/
lemma eq_nil_of_at? {t v : Tree} {q : List Segment} (ht : t.children = []) (h : t.at? q = some v) :
    q = [] ∧ v = t := by
  cases q with
  | nil => exact ⟨rfl, (Option.some.inj h).symm⟩
  | cons s q =>
    obtain ⟨c, hc, -⟩ := at?_cons_eq_some_iff.mp h
    have := mem_children_of_child? hc
    rw [ht] at this
    exact absurd this List.not_mem_nil

/-- Nesting a well-formed tree gives another. -/
lemma wellFormed_nest {t : Tree} (h : t.WellFormed) (p : List Segment) : (nest p t).WellFormed := by
  induction p with
  | nil => exact h
  | cons s p ih =>
    rw [nest, wellFormed_iff]
    refine ⟨List.nodup_singleton _, fun c hc => ?_⟩
    rw [List.mem_singleton.mp hc]
    exact ih

/-- The locations below the end of a nest come first. -/
lemma locations_nest (p : List Segment) (t : Tree) :
    ∃ l, (nest p t).locations = t.locations.map (p ++ ·) ++ l := by
  induction p with
  | nil => exact ⟨[], by simp [nest]⟩
  | cons s p ih =>
    obtain ⟨l, hl⟩ := ih
    refine ⟨l.map (s :: ·) ++ [[]], ?_⟩
    rw [nest, locations, locationsOfFields, locationsOfFields, hl]
    simp

end Tree

/-! ### The targets of a list of steps -/

/-- The segments that a step takes from a nest: the key, or one key for every child, or none at all. -/
def Step.taken : Step → List Segment
  | .key s => [s]
  | .wildcard => [⟨"k"⟩]
  | .descent => []

namespace Stage

open Selector (stagesOf)

/-- A key has the targets of the child that it leads to. -/
lemma targets_stagesOf_key (direct : Bool) (s : Segment) (steps : List Step) (t : Tree) :
    targets direct (stagesOf (.key s :: steps)) t
      = (t.child? s).elim [] fun c => (targets direct (stagesOf steps) c).map (s :: ·) := by
  rw [stagesOf]
  cases hstages : stagesOf steps with
  | nil => simp [targets, Pointer.at?, Tree.at?_cons]
  | cons stage rest =>
    cases stage with
    | literal p =>
      simp only [targets, Pointer.at?, Tree.at?_cons]
      cases t.child? s with
      | none => rfl
      | some c =>
        simp only [Option.bind_some, Option.elim_some]
        cases c.at? p.segments <;> simp
    | wildcard | descent | terminal =>
      simp only [targets, Pointer.at?, Tree.at?_cons]
      cases t.child? s <;> simp

/-- A descent has the targets of every node below. -/
lemma targets_stagesOf_descent (steps : List Step) {t : Tree} (ht : t.WellFormed) :
    targets false (stagesOf (.descent :: steps)) t = t.locations.flatMap fun w =>
      (t.at? w).elim [] fun c => (targets false (stagesOf steps) c).map (w ++ ·) :=
  targets_descent (by simp) ht

/-- A nested tree has a single member. -/
lemma members_nest_cons (s : Segment) (p : List Segment) (t : Tree) :
    (Tree.nest (s :: p) t).members = [(s, Tree.nest p t)] := rfl

/-- The end of a nest is a target of the steps from which it is made. -/
theorem mem_targets_nest (steps : List Step) {t : Tree} (ht : t.WellFormed) :
    steps.flatMap Step.taken ∈ targets false (stagesOf steps) (Tree.nest (steps.flatMap Step.taken) t) := by
  induction steps with
  | nil => exact List.mem_singleton_self _
  | cons step steps ih =>
    rw [List.flatMap_cons]
    cases step with
    | key s =>
      rw [targets_stagesOf_key, Step.taken, List.singleton_append, Tree.child?_nest_cons,
        Option.elim_some]
      exact List.mem_map_of_mem ih
    | wildcard =>
      rw [stagesOf, targets_wildcard, Step.taken, List.singleton_append, members_nest_cons,
        List.flatMap_singleton]
      exact List.mem_map_of_mem ih
    | descent =>
      rw [targets_stagesOf_descent steps (Tree.wellFormed_nest ht _), Step.taken, List.nil_append]
      exact List.mem_flatMap.mpr ⟨[], Tree.nil_mem_locations _, by simpa using ih⟩

/-- Without a descent the steps lead to the end of the nest that is made from them, and nowhere else. -/
theorem targets_nest (direct : Bool) {pre : List Step} (h : .descent ∉ pre) (steps : List Step)
    (t : Tree) : targets direct (stagesOf (pre ++ steps)) (Tree.nest (pre.flatMap Step.taken) t)
      = (targets direct (stagesOf steps) t).map (pre.flatMap Step.taken ++ ·) := by
  induction pre with
  | nil => simp [Tree.nest]
  | cons step pre ih =>
    rw [List.mem_cons, not_or] at h
    rw [List.flatMap_cons, List.cons_append]
    cases step with
    | key s =>
      rw [targets_stagesOf_key, Step.taken, List.singleton_append, Tree.child?_nest_cons,
        Option.elim_some, ih h.2, List.map_map]
      rfl
    | wildcard =>
      rw [stagesOf, targets_wildcard, Step.taken, List.singleton_append, members_nest_cons,
        List.flatMap_singleton, ih h.2, List.map_map]
      rfl
    | descent => exact absurd rfl h.1

end Stage

namespace Tree

/-! ### The trap -/

/-- The source of the three copies: the stub, under a key that names the index 1, and an array with two
elements that hold a mark, under a key that names the index 0. -/
def trap (q : List Segment) : Tree :=
  .map [((Segment.ofIndex 1).key, nest q stub),
    ((Segment.ofIndex 0).key, nest (q.map Segment.leading)
      (.array [nest (⟨"x"⟩ :: q) mark, nest (⟨"x"⟩ :: q) mark]))]

/-- The location of an element of the array in the trap. -/
def element (q : List Segment) (i : ℕ) : List Segment :=
  .ofIndex 0 :: q.map Segment.leading ++ [.ofIndex i]

/-- Accepts the stub and the marks. -/
def marked : Filter := .test fun t => t == stub || t == mark

/-- Under the index 1 a trap holds the stub. -/
lemma child?_trap_one (q : List Segment) :
    (trap q).child? (.ofIndex 1) = some (nest q stub) := by
  simp [trap, child?, field?, Entries.get?]

/-- Under the index 0 a trap holds the array of two elements. -/
lemma child?_trap_zero (q : List Segment) :
    (trap q).child? (.ofIndex 0) = some (nest (q.map Segment.leading)
      (.array [nest (⟨"x"⟩ :: q) mark, nest (⟨"x"⟩ :: q) mark])) := by
  have hkey : (Segment.ofIndex 1).key ≠ (Segment.ofIndex 0).key := by decide
  simp [trap, child?, field?, Entries.get?, hkey]

/-- The mark is well-formed. -/
lemma wellFormed_mark : mark.WellFormed := by decide

/-- The stub is well-formed. -/
lemma wellFormed_stub : stub.WellFormed := by decide

/-- A trap is well-formed. -/
lemma wellFormed_trap (q : List Segment) : (trap q).WellFormed := by
  have helements : (Tree.array [nest (⟨"x"⟩ :: q) mark, nest (⟨"x"⟩ :: q) mark]).WellFormed := by
    rw [wellFormed_iff]
    refine ⟨by simp [Sound, Segment.indexBound], fun c hc => ?_⟩
    simp only [children, List.mem_cons, List.not_mem_nil, or_false, or_self] at hc
    exact hc ▸ wellFormed_nest wellFormed_mark _
  have hkey : (Segment.ofIndex 1).key ≠ (Segment.ofIndex 0).key := by decide
  rw [trap, wellFormed_iff]
  refine ⟨?_, fun c hc => ?_⟩
  · simpa [Sound, Entries.Distinct] using hkey
  · simp only [children, List.map_cons, List.map_nil, List.mem_cons, List.not_mem_nil,
      or_false] at hc
    rcases hc with rfl | rfl
    · exact wellFormed_nest wellFormed_stub q
    · exact wellFormed_nest helements _

/-- Each of the two elements of the array in a trap leads to a mark. -/
lemma at?_element {q : List Segment} {i : ℕ} (hi : i < 2) :
    (trap q).at? (element q i) = some (nest (⟨"x"⟩ :: q) mark) := by
  have hindex : (Segment.ofIndex i).index? = some i :=
    Segment.index?_ofIndex (hi.trans_le (by simp [Segment.indexBound]))
  rw [element, List.cons_append, at?_cons, child?_trap_zero, Option.bind_some, at?_nest_append,
    at?_cons, child?, hindex]
  interval_cases i <;> rfl

/-- The stub is found in a trap. -/
lemma at?_trap_stub (q : List Segment) : (trap q).at? (.ofIndex 1 :: q) = some stub := by
  rw [at?_cons, child?_trap_one, Option.bind_some, at?_nest]

/-- The array is found in a trap. -/
lemma at?_trap_array (q : List Segment) : (trap q).at? (.ofIndex 0 :: q.map Segment.leading)
    = some (.array [nest (⟨"x"⟩ :: q) mark, nest (⟨"x"⟩ :: q) mark]) := by
  rw [at?_cons, child?_trap_zero, Option.bind_some, at?_nest]

/-- The marks are found in a trap. -/
lemma at?_trap_mark {q : List Segment} {i : ℕ} (hi : i < 2) :
    (trap q).at? (element q i ++ ⟨"x"⟩ :: q) = some mark := by
  rw [at?_append, at?_element hi, Option.bind_some, at?_nest]

/-- The filter accepts the stub and the mark only. -/
lemma accepts_marked_iff {v : Tree} : marked.accepts v = true ↔ v = stub ∨ v = mark := by
  simp [marked, Filter.accepts]

/-- The filter accepts no map. -/
lemma kind_of_marked {v : Tree} (hmarked : marked.accepts v = true) : v.kind ≠ .map := by
  rcases accepts_marked_iff.mp hmarked with rfl | rfl <;> simp [stub, mark, kind]

/-- The filter accepts nothing below a nest with the stub at its end but the stub. -/
lemma eq_of_at?_nest_stub {q r : List Segment} {v : Tree} (hv : (nest q stub).at? r = some v)
    (hmarked : marked.accepts v = true) : r = q := by
  obtain ⟨r, rfl, hstub⟩ := (at?_nest_cases hv).resolve_left (kind_of_marked hmarked)
  cases r with
  | nil => exact List.append_nil q
  | cons s r =>
    obtain ⟨c, hc, hnull⟩ := at?_cons_eq_some_iff.mp hstub
    obtain rfl : c = .null := List.mem_singleton.mp (mem_children_of_child? hc)
    rw [(eq_nil_of_at? rfl hnull).2] at hmarked
    exact absurd hmarked (by simp [accepts_marked_iff, stub, mark])

/-- The filter accepts nothing of an array of two nests with marks at their ends but these. -/
lemma eq_of_at?_marks {p r : List Segment} {v : Tree}
    (hv : (array [nest p mark, nest p mark]).at? r = some v) (hmarked : marked.accepts v = true) :
    r = .ofIndex 0 :: p ∨ r = .ofIndex 1 :: p := by
  cases r with
  | nil =>
    rw [← Option.some.inj hv] at hmarked
    exact absurd hmarked (by simp [accepts_marked_iff, stub, mark])
  | cons s r =>
    obtain ⟨c, hc, hbelow⟩ := at?_cons_eq_some_iff.mp hv
    obtain rfl : c = nest p mark := by simpa [children] using mem_children_of_child? hc
    obtain ⟨r, rfl, hmark⟩ := (at?_nest_cases hbelow).resolve_left (kind_of_marked hmarked)
    rw [(eq_nil_of_at? rfl hmark).1, List.append_nil]
    obtain ⟨i, hi, hget⟩ := Option.bind_eq_some_iff.mp hc
    have hlt : i < 2 := (List.getElem?_eq_some_iff.mp hget).1
    obtain rfl := Segment.eq_ofIndex_of_index? hi
    interval_cases i
    · exact .inl rfl
    · exact .inr rfl

/-- The filter accepts the stub and the marks of the two elements, and nothing else of the trap. -/
lemma eq_of_at?_trap {q r : List Segment} {v : Tree} (hv : (trap q).at? r = some v)
    (hmarked : marked.accepts v = true) : r = .ofIndex 1 :: q ∨
      r = element q 0 ++ ⟨"x"⟩ :: q ∨ r = element q 1 ++ ⟨"x"⟩ :: q := by
  have hkind := kind_of_marked hmarked
  cases r with
  | nil =>
    rw [← Option.some.inj hv] at hkind
    exact absurd rfl hkind
  | cons s r =>
    obtain ⟨c, hc, hr⟩ := at?_cons_eq_some_iff.mp hv
    have hs : s = .ofIndex 1 ∨ s = .ofIndex 0 := by
      by_contra! hne
      have hkey : ∀ i, s ≠ .ofIndex i → (Segment.ofIndex i).key ≠ s.key := fun i h heq =>
        h (congrArg Segment.mk heq).symm
      simp [trap, child?, field?, Entries.get?, hkey 0 hne.2, hkey 1 hne.1] at hc
    rcases hs with rfl | rfl
    · rw [child?_trap_one, Option.some_inj] at hc
      subst hc
      exact .inl (congrArg _ (eq_of_at?_nest_stub hr hmarked))
    · rw [child?_trap_zero, Option.some_inj] at hc
      subst hc
      obtain ⟨r, rfl, harray⟩ := (at?_nest_cases hr).resolve_left hkind
      rcases eq_of_at?_marks harray hmarked with rfl | rfl
      · exact .inr (.inl (by simp [element]))
      · exact .inr (.inr (by simp [element]))

end Tree

namespace Pointer

/-! ### Runs of which only one target is offered -/

/-- Of some targets exactly one is offered, which is `v`. -/
structure OffersOnly (source : Tree) (filter : Option Filter) (ts : List (List Segment))
    (p : List Segment) (v : Tree) : Prop where
  found : source.at? p = some v
  offered : source.offers filter p = true
  mem : p ∈ ts
  only : ∀ q ∈ ts, source.offers filter q = true → q = p

variable {source : Tree} {filter : Option Filter} {p : List Segment} {v : Tree}
  {ts : List (List Segment)}

/-- The one target that is offered is copied as the run stands. -/
lemma OffersOnly.mem_landings (h : OffersOnly source filter ts p v) (us : List (List Segment))
    (pl : Placement) (t : Tree) :
    (p, Tree.landing [] p pl t) ∈ landings source filter ((ts ++ us).map Pointer.mk) pl t := by
  obtain ⟨-, hoff, hmem, honly⟩ := h
  induction ts with
  | nil => exact absurd hmem List.not_mem_nil
  | cons q ts ih =>
    rw [List.cons_append, List.map_cons]
    by_cases hq : q = p
    · rw [hq, landings]
      simp only [hoff, if_true]
      exact List.mem_cons_self
    · have hnot : source.offers filter q = false :=
        Bool.eq_false_iff.mpr fun hoffq => hq (honly q List.mem_cons_self hoffq)
      rw [landings_cons_of_not_offers hnot]
      exact ih ((List.mem_cons.mp hmem).resolve_left (Ne.symm hq))
        fun q hq => honly q (List.mem_cons_of_mem _ hq)

/-- Copying the one target that is offered, once or again and again, leaves what one copy leaves and
keeps. -/
lemma OffersOnly.exists_landings_subset (h : OffersOnly source filter ts p v) (hp : p ≠ [])
    {Inv : Placement → Tree → Prop} {pl : Placement} {t : Tree}
    (hfirst : (Tree.copyOver v [] p pl t).1.error = none ∧
      Inv (Tree.copyOver v [] p pl t).2 (Tree.copyOver v [] p pl t).1.tree)
    (hagain : ∀ pl t, Inv pl t → (Tree.copyOver v [] p pl t).1.error = none ∧
      Inv (Tree.copyOver v [] p pl t).2 (Tree.copyOver v [] p pl t).1.tree) :
    ∃ pl' t', Inv pl' t' ∧ ∀ us : List (List Segment),
      landings source filter (us.map Pointer.mk) pl' t'
        ⊆ landings source filter ((ts ++ us).map Pointer.mk) pl t := by
  obtain ⟨hv, hoff, hmem, honly⟩ := h
  have hstate : Inv pl t ∨ p ∈ ts ∧ (Tree.copyOver v [] p pl t).1.error = none ∧
      Inv (Tree.copyOver v [] p pl t).2 (Tree.copyOver v [] p pl t).1.tree := .inr ⟨hmem, hfirst⟩
  clear hmem hfirst
  -- either the first copy is still to come or the invariant holds
  induction ts generalizing pl t with
  | nil =>
    have hinv : Inv pl t := hstate.resolve_right fun hmem => absurd hmem.1 List.not_mem_nil
    exact ⟨pl, t, hinv, fun us => List.Subset.refl _⟩
  | cons q ts ih =>
    have honly' : ∀ q ∈ ts, source.offers filter q = true → q = p :=
      fun q hq => honly q (List.mem_cons_of_mem _ hq)
    by_cases hq : q = p
    · subst hq
      obtain ⟨hok, hinv⟩ := hstate.elim (hagain pl t) And.right
      have hcopy := copyPlaced_of_offers hv hoff hp pl t
      have hok' : (copyPlaced ⟨q⟩ source filter pl t).1.error = none := by
        rw [hcopy, Outcome.mapError, hok]
        rfl
      obtain ⟨pl', t', hinv', hsub⟩ := ih honly' (.inl hinv)
      refine ⟨pl', t', hinv', fun us => List.Subset.trans (hsub us) ?_⟩
      rw [List.cons_append, List.map_cons, landings_cons_of_ok hoff hok', hcopy]
      exact List.subset_cons_self _ _
    · have hnot : source.offers filter q = false :=
        Bool.eq_false_iff.mpr fun hoffq => hq (honly q List.mem_cons_self hoffq)
      have hstate' := hstate.imp_right fun hmem =>
        And.intro ((List.mem_cons.mp hmem.1).resolve_left (Ne.symm hq)) hmem.2
      obtain ⟨pl', t', hinv', hsub⟩ := ih honly' hstate'
      refine ⟨pl', t', hinv', fun us => ?_⟩
      rw [List.cons_append, List.map_cons, landings_cons_of_not_offers hnot]
      exact hsub us

/-- If all copies of the stub come before those of the first element, and these before those of the
second, then the copies of both elements land in one element. -/
theorem exists_landings_shared {way q r : List Segment} (hway : way ≠ []) (hr : r ≠ [])
    {ts₁ ts₂ ts₃ : List (List Segment)}
    (h₁ : OffersOnly source filter ts₁ (way ++ .ofIndex 1 :: q) Tree.stub)
    (h₂ : OffersOnly source filter ts₂ (way ++ Tree.element q 0 ++ r) Tree.mark)
    (h₃ : OffersOnly source filter ts₃ (way ++ Tree.element q 1 ++ r) Tree.mark)
    (us : List (List Segment)) : ∃ d d' d'',
      (way ++ Tree.element q 0 ++ r, d ++ .ofIndex 1 :: d')
        ∈ landings source filter ((ts₁ ++ (ts₂ ++ (ts₃ ++ us))).map Pointer.mk) .empty (.map []) ∧
      (way ++ Tree.element q 1 ++ r, d ++ .ofIndex 1 :: d'')
        ∈ landings source filter ((ts₁ ++ (ts₂ ++ (ts₃ ++ us))).map Pointer.mk) .empty (.map []) ∧
      d.length = (way ++ .ofIndex 0 :: q.map Segment.leading).length := by
  obtain ⟨m, way, rfl⟩ := List.exists_cons_of_ne_nil hway
  have helement : ∀ i, m :: way ++ Tree.element q i ++ r
      = m :: (way ++ .ofIndex 0 :: q.map Segment.leading) ++ .ofIndex i :: r := by
    simp [Tree.element]
  rw [helement] at h₂ h₃
  rw [helement, helement]
  have hlen : (way ++ .ofIndex 1 :: q).length
      ≤ (way ++ .ofIndex 0 :: q.map Segment.leading).length := by simp
  have hpq : (way ++ .ofIndex 1 :: q).map Segment.leading
      = (way ++ .ofIndex 0 :: q.map Segment.leading).map Segment.leading := by
    simp [Segment.leading_of_index? Segment.index?_ofIndex_zero,
      Segment.leading_of_index? Segment.index?_ofIndex_one, Segment.leading_leading]
  obtain ⟨pl₁, t₁, hstubbed, hsub₁⟩ := h₁.exists_landings_subset (by simp)
    (Tree.stubbed_copyOver_empty hlen (Segment.index?_of_leading way))
    fun pl t h => Tree.Stubbed.again h hlen
  obtain ⟨hok, hdisplaced, d', hland⟩ := hstubbed.displaced hpq hr
  have hmem := h₂.mem_landings (ts₃ ++ us) pl₁ t₁
  obtain ⟨pl₂, t₂, hdisplaced₂, hsub₂⟩ := h₂.exists_landings_subset (by simp) ⟨hok, hdisplaced⟩
    fun pl t h => Tree.Displaced.again h
  obtain ⟨d'', hland'⟩ := hdisplaced₂.landing
  have hmem' := h₃.mem_landings us pl₂ t₂
  rw [hland] at hmem
  rw [hland'] at hmem'
  exact ⟨m :: (way ++ .ofIndex 0 :: q.map Segment.leading).map Segment.leading, d', d'',
    hsub₁ _ hmem, hsub₁ _ (hsub₂ _ hmem'), by simp⟩

end Pointer

/-! ### The targets in the trap -/

namespace Stage

/-- The targets of stages from several nodes below `z`, seen from `p` above. -/
def targetsBelow (stages : List Stage) (t : Tree) (p z : List Segment) (us : List (List Segment)) :
    List (List Segment) :=
  ((us.map (z ++ ·)).flatMap fun u =>
    (t.at? u).elim [] fun c => (targets false stages c).map (u ++ ·)).map (p ++ ·)

/-- The targets below nodes are those of each of the nodes. -/
lemma mem_targetsBelow {stages : List Stage} {t c : Tree} {us : List (List Segment)}
    {p z u q : List Segment} (hu : u ∈ us) (hc : t.at? (z ++ u) = some c)
    (hq : q ∈ targets false stages c) : p ++ (z ++ u ++ q) ∈ targetsBelow stages t p z us := by
  refine List.mem_map_of_mem (List.mem_flatMap.mpr ⟨z ++ u, List.mem_map_of_mem hu, ?_⟩)
  rw [hc]
  exact List.mem_map_of_mem hq

/-- The targets below nodes are behind where the nodes are. -/
lemma isPrefix_of_mem_targetsBelow {stages : List Stage} {t : Tree} {us : List (List Segment)}
    {p z q : List Segment} (hq : q ∈ targetsBelow stages t p z us) : p ++ z <+: q := by
  obtain ⟨q, hbelow, rfl⟩ := List.mem_map.mp hq
  obtain ⟨_, hu, hmem⟩ := List.mem_flatMap.mp hbelow
  obtain ⟨u, -, rfl⟩ := List.mem_map.mp hu
  rw [List.prefix_append_right_inj]
  cases hc : t.at? (z ++ u) with
  | none =>
    rw [hc] at hmem
    exact absurd hmem List.not_mem_nil
  | some c =>
    rw [hc] at hmem
    obtain ⟨q, -, rfl⟩ := List.mem_map.mp hmem
    exact (List.prefix_append z u).trans (List.prefix_append _ q)

end Stage

namespace Tree

/-- The trap under one key, which stands at the end of `p`. -/
def snare (p q : List Segment) : Tree := nest p (nest [⟨"m"⟩] (trap q))

/-- The stub comes first, and then the elements of the array in their order. -/
lemma locations_trap (q : List Segment) :
    ∃ l, (nest [⟨"m"⟩] (trap q)).locations
      = (nest q stub).locations.map ([⟨"m"⟩, .ofIndex 1] ++ ·)
      ++ (nest (⟨"x"⟩ :: q) mark).locations.map (⟨"m"⟩ :: element q 0 ++ ·)
      ++ (nest (⟨"x"⟩ :: q) mark).locations.map (⟨"m"⟩ :: element q 1 ++ ·) ++ l := by
  obtain ⟨l, hl⟩ := locations_nest (q.map Segment.leading)
    (.array [nest (⟨"x"⟩ :: q) mark, nest (⟨"x"⟩ :: q) mark])
  obtain ⟨l', hl'⟩ := locations_nest [⟨"m"⟩] (trap q)
  rw [hl', trap, locations, locationsOfFields, locationsOfFields, locationsOfFields, hl, locations,
    locationsOfItems, locationsOfItems, locationsOfItems]
  simp only [element, List.map_append, List.map_map, List.append_assoc, List.append_nil]
  refine ⟨_, congrArg₂ _ rfl (congrArg₂ _ (List.map_congr_left fun u _ => ?_)
    (congrArg₂ _ (List.map_congr_left fun u _ => ?_) rfl))⟩ <;> simp

/-- A snare is well-formed. -/
lemma wellFormed_snare (p q : List Segment) : (snare p q).WellFormed :=
  wellFormed_nest (wellFormed_nest (wellFormed_trap q) _) p

/-- A snare holds a trap. -/
lemma at?_snare (p q r : List Segment) :
    (snare p q).at? (p ++ [⟨"m"⟩] ++ r) = (trap q).at? r := by
  rw [snare, List.append_assoc, at?_nest_append, at?_nest_append]

/-- The filter accepts the stub and the marks, and nothing else. -/
lemma eq_of_offers_snare {p q y : List Segment} (h : offers (snare p q) (some marked) y = true) :
    y = p ++ [⟨"m"⟩] ++ .ofIndex 1 :: q ∨ y = p ++ [⟨"m"⟩] ++ element q 0 ++ ⟨"x"⟩ :: q ∨
      y = p ++ [⟨"m"⟩] ++ element q 1 ++ ⟨"x"⟩ :: q := by
  obtain ⟨v, hv, hmarked⟩ := offers_eq_true_iff.mp h
  have hkind : v.kind ≠ .map := kind_of_marked hmarked
  obtain ⟨r, rfl, hr⟩ := (at?_nest_cases hv).resolve_left hkind
  obtain ⟨r, rfl, hr'⟩ := (at?_nest_cases hr).resolve_left hkind
  rcases eq_of_at?_trap hr' hmarked with rfl | rfl | rfl <;> simp

/-- Of the targets below the first key of the trap the one that leads to the stub is offered. -/
lemma offersOnly_stub {stages : List Stage} (p : List Segment) {q : List Segment}
    (hq : q ∈ Stage.targets false stages (nest q stub)) :
    Pointer.OffersOnly (snare p q) (some marked)
      (Stage.targetsBelow stages (nest [⟨"m"⟩] (trap q)) p [⟨"m"⟩, .ofIndex 1]
        (nest q stub).locations) (p ++ [⟨"m"⟩] ++ .ofIndex 1 :: q) stub := by
  have hfound := (at?_snare p q _).trans (at?_trap_stub q)
  have hbelow : (nest [⟨"m"⟩] (trap q)).at? ([⟨"m"⟩, .ofIndex 1] ++ []) = some (nest q stub) := by
    rw [List.append_nil, at?_cons, child?_nest_cons, Option.bind_some, nest, at?_singleton,
      child?_trap_one]
  refine ⟨hfound, offers_eq_true_iff.mpr ⟨_, hfound, by simp [accepts_marked_iff]⟩, ?_, ?_⟩
  · simpa using Stage.mem_targetsBelow (p := p) (nil_mem_locations _) hbelow hq
  · intro y hy hoff
    have hpre := Stage.isPrefix_of_mem_targetsBelow hy
    rcases eq_of_offers_snare hoff with rfl | rfl | rfl
    · rfl
    · simp [element] at hpre
    · simp [element] at hpre

/-- Of the targets below an element of the array in the trap the one that leads to the mark is offered. -/
lemma offersOnly_mark {stages : List Stage} (p : List Segment) {q : List Segment}
    (hq : q ∈ Stage.targets false stages (nest q mark)) {i : ℕ} (hi : i < 2) :
    Pointer.OffersOnly (snare p q) (some marked)
      (Stage.targetsBelow stages (nest [⟨"m"⟩] (trap q)) p (⟨"m"⟩ :: element q i)
        (nest (⟨"x"⟩ :: q) mark).locations) (p ++ [⟨"m"⟩] ++ element q i ++ ⟨"x"⟩ :: q) mark := by
  have hfound : (snare p q).at? (p ++ [⟨"m"⟩] ++ element q i ++ ⟨"x"⟩ :: q) = some mark := by
    rw [List.append_assoc, at?_snare, at?_trap_mark hi]
  have hx : [⟨"x"⟩] ∈ (nest (⟨"x"⟩ :: q) mark).locations :=
    cons_mem_locations_iff.mpr ⟨nest q mark, List.mem_singleton_self _, nil_mem_locations _⟩
  have hbelow : (nest [⟨"m"⟩] (trap q)).at? (⟨"m"⟩ :: element q i ++ [⟨"x"⟩])
      = some (nest q mark) := by
    rw [List.cons_append, at?_cons, child?_nest_cons, Option.bind_some, nest, at?_append,
      at?_element hi, Option.bind_some, at?_singleton, child?_nest_cons]
  refine ⟨hfound, offers_eq_true_iff.mpr ⟨_, hfound, by simp [accepts_marked_iff]⟩, ?_, ?_⟩
  · simpa using Stage.mem_targetsBelow (p := p) hx hbelow hq
  · intro y hy hoff
    have hpre := Stage.isPrefix_of_mem_targetsBelow hy
    rcases eq_of_offers_snare hoff with rfl | rfl | rfl
    · simp [element] at hpre
    · obtain rfl : i = 0 := by simpa [element] using hpre
      rfl
    · obtain rfl : i = 1 := by simpa [element] using hpre
      rfl

end Tree

namespace Selector

/-- The targets that lead to the stub come first, and then those that lead to the elements of the array in
their order. -/
lemma targets_snare {pre : List Step} (hpre : .descent ∉ pre) (post : List Step) (q : List Segment) :
    ∃ ts, Stage.targets false (stagesOf (pre ++ .descent :: post))
        (Tree.snare (pre.flatMap Step.taken) q)
      = Stage.targetsBelow (stagesOf post) (Tree.nest [⟨"m"⟩] (Tree.trap q))
          (pre.flatMap Step.taken) [⟨"m"⟩, .ofIndex 1] (Tree.nest q Tree.stub).locations
        ++ (Stage.targetsBelow (stagesOf post) (Tree.nest [⟨"m"⟩] (Tree.trap q))
          (pre.flatMap Step.taken) (⟨"m"⟩ :: Tree.element q 0)
          (Tree.nest (⟨"x"⟩ :: q) Tree.mark).locations
        ++ (Stage.targetsBelow (stagesOf post) (Tree.nest [⟨"m"⟩] (Tree.trap q))
          (pre.flatMap Step.taken) (⟨"m"⟩ :: Tree.element q 1)
          (Tree.nest (⟨"x"⟩ :: q) Tree.mark).locations ++ ts)) := by
  have hwf := Tree.wellFormed_nest (Tree.wellFormed_trap q) [⟨"m"⟩]
  obtain ⟨l, hl⟩ := Tree.locations_trap q
  rw [Tree.snare, Stage.targets_nest false hpre, Stage.targets_stagesOf_descent post hwf, hl]
  simp only [List.flatMap_append, List.map_append, List.append_assoc]
  exact ⟨_, rfl⟩

/-- With a descent in the selector, two elements of an array of some source come together. -/
theorem exists_not_keepsElementsApart {s : Selector} {pre post : List Step} (hpre : .descent ∉ pre)
    (hs : s.stages = stagesOf (pre ++ .descent :: post)) : ∃ source : Tree, source.WellFormed ∧
      ∃ filter, ¬ s.KeepsElementsApart false source (some filter) := by
  obtain ⟨ts, hts⟩ := targets_snare hpre post (post.flatMap Step.taken)
  have hstub := Stage.mem_targets_nest post Tree.wellFormed_stub
  have hmark := Stage.mem_targets_nest post Tree.wellFormed_mark
  generalize pre.flatMap Step.taken = p at hts
  generalize post.flatMap Step.taken = q at hts hstub hmark
  refine ⟨Tree.snare p q, Tree.wellFormed_snare p q, Tree.marked, fun h => ?_⟩
  obtain ⟨d, d', d'', hx, hy, hd⟩ := Pointer.exists_landings_shared (by simp) (by simp)
    (Tree.offersOnly_stub p hstub) (Tree.offersOnly_mark p hmark Nat.zero_lt_two)
    (Tree.offersOnly_mark p hmark Nat.one_lt_two) ts
  rw [← hts, ← hs] at hx hy
  -- the copies of both elements go to the second element of one array
  have hsame := h.apart _ hx _ hy (p ++ [⟨"m"⟩] ++ .ofIndex 0 :: q.map Segment.leading) (.ofIndex 0)
    (.ofIndex 1) _ ((Tree.at?_snare p q _).trans (Tree.at?_trap_array q)) ⟨⟨"x"⟩ :: q, ?_⟩
    ⟨⟨"x"⟩ :: q, ?_⟩
  · have heq : Segment.ofIndex 0 = .ofIndex 1 := hsame.mp (by
      rw [← hd, List.take_length_add_append, List.take_length_add_append]
      rfl)
    exact absurd (Segment.ofIndex_injective heq) (by simp)
  · simp [Tree.element]
  · simp [Tree.element]

/-- The stages of an accepted path are those of a list of steps, unless it is the empty path. -/
lemma stages_of_compile {path : String} {s : Selector} (hs : compile path = .ok s) :
    s.stages = [.literal .root, .terminal] ∨ ∃ steps, s.stages = stagesOf steps := by
  unfold compile at hs
  split at hs
  · next stages hstages =>
    obtain rfl := Except.ok.inj hs
    unfold stagesOfChars at hstages
    split at hstages
    · exact .inl (Except.ok.inj hstages).symm
    · split at hstages
      · exact absurd hstages (by simp)
      · next raws _ =>
        right
        cases hread : mapUntilFault readStep raws with
        | error fault =>
          rw [hread] at hstages
          exact absurd hstages (by simp [Except.map])
        | ok steps =>
          rw [hread] at hstages
          exact ⟨steps, (Except.ok.inj hstages).symm⟩
  · exact absurd hs (by simp)

/-- Only a descent among the steps gives a descent among the stages. -/
lemma mem_of_descent_mem_stagesOf {steps : List Step} (h : .descent ∈ stagesOf steps) :
    .descent ∈ steps := by
  induction steps with
  | nil => simp [stagesOf] at h
  | cons step steps ih =>
    cases step with
    | descent => exact List.mem_cons_self
    | wildcard => exact List.mem_cons_of_mem _ (ih (by simpa [stagesOf] using h))
    | key s =>
      refine List.mem_cons_of_mem _ (ih ?_)
      rw [stagesOf] at h
      split at h
      · next p stages hstages =>
        rw [hstages]
        simpa using h
      · simpa using h

/-- A selector keeps the elements of all arrays apart exactly if it has no descent.  It keeps those of
sources in which no key names an index apart also with one descent, if nothing but plain keys follows. -/
theorem forall_keepsElementsApart_iff {path : String} {s : Selector} (hs : compile path = .ok s) :
    ((∀ source : Tree, source.WellFormed → ∀ fast filter, s.KeepsElementsApart fast source filter)
      ↔ .descent ∉ s.stages) ∧
    (Stage.PlainAfterDescent s.stages → ∀ source : Tree, source.WellFormed → source.PlainKeys →
      ∀ fast filter, s.KeepsElementsApart fast source filter) := by
  refine ⟨⟨fun h hmem => ?_, fun h source hwf fast filter =>
    keepsElementsApart_of_direct h fast hwf filter⟩, fun h source hwf hk fast filter =>
      keepsElementsApart_of_plain h fast hwf hk filter⟩
  rcases stages_of_compile hs with hstages | ⟨steps, hstages⟩
  · rw [hstages] at hmem
    simp at hmem
  · rw [hstages] at hmem
    obtain ⟨pre, post, rfl, hpre⟩ := List.eq_append_cons_of_mem (mem_of_descent_mem_stagesOf hmem)
    obtain ⟨source, hwf, filter, hnot⟩ := exists_not_keepsElementsApart hpre hstages
    exact hnot (h source hwf false (some filter))

/-- The path `/l/*/k` keeps the elements of all arrays apart, and `/**/k` those of
`{"l": [null, {"k": true}]}`. -/
theorem keepsElementsApart_wildcard_plain : ∃ s s' : Selector,
    compile "/l/*/k" = .ok s ∧ compile "/**/k" = .ok s'
      ∧ (∀ source : Tree, source.WellFormed → ∀ fast filter, s.KeepsElementsApart fast source filter)
      ∧ s'.KeepsElementsApart true (.map [("l", .array [.null, .map [("k", .bool true)]])]) none := by
  have hplain : Stage.PlainAfterDescent [.descent, .literal ⟨[⟨"k"⟩]⟩, .terminal] := by decide
  have hwf : (Tree.map [("l", .array [.null, .map [("k", .bool true)]])]).WellFormed := by decide
  have hk : (Tree.map [("l", .array [.null, .map [("k", .bool true)]])]).PlainKeys := by decide
  have hdirect : compile "/l/*/k" = .ok ⟨"/l/*/k",
      [.literal ⟨[⟨"l"⟩]⟩, .wildcard, .literal ⟨[⟨"k"⟩]⟩, .terminal]⟩ := rfl
  have hdescent : compile "/**/k" = .ok ⟨"/**/k",
      [.descent, .literal ⟨[⟨"k"⟩]⟩, .terminal]⟩ := rfl
  exact ⟨_, _, hdirect, hdescent, (forall_keepsElementsApart_iff hdirect).1.mpr (by decide),
    (forall_keepsElementsApart_iff hdescent).2 hplain _ hwf hk true none⟩

/-- The path `/**/*/**` copies the second element of `{"l": [1, {"a": {"b": 2}}]}` to two elements, if only
values are accepted: the first element takes the place of the second. -/
theorem not_keepsElementsApart_two_descents : ∃ s : Selector, compile "/**/*/**" = .ok s ∧
    ¬ s.KeepsElementsApart true (.map [("l", .array [.number (.int 1),
      .map [("a", .map [("b", .number (.int 2))])]])]) (some (.ofKind "value")) := by
  refine ⟨⟨"/**/*/**", [.descent, .wildcard, .descent, .terminal]⟩, rfl, fun h => ?_⟩
  have hsame := h.apart ([⟨"l"⟩, ⟨"1"⟩, ⟨"a"⟩, ⟨"b"⟩], [⟨"l"⟩, ⟨"0"⟩, ⟨"a"⟩, ⟨"b"⟩]) (by decide)
    ([⟨"l"⟩, ⟨"1"⟩, ⟨"a"⟩, ⟨"b"⟩], [⟨"l"⟩, ⟨"1"⟩, ⟨"a"⟩, ⟨"b"⟩]) (by decide) [⟨"l"⟩] ⟨"1"⟩ ⟨"1"⟩ _
    rfl ⟨_, rfl⟩ ⟨_, rfl⟩
  exact absurd (hsame.mpr rfl) (by decide)

end Selector

end DocumentPath
