import Mathlib
import DocumentPath.Proofs.StepRemovals

/-!
# Removals that take matches only

A removal that ends at an index moves the later elements of an array down while it still goes through
the tree, so an element may come to stand where it did not stand before.  This module shows for which
selectors nothing is taken that did not match: if there is no descent (`Stage.takesMatches_of_direct`),
or only one, with no index after it that the removal could move (`Stage.takesMatches_of_index`), and if
the last segment is not an index (`Stage.takesMatches_of_plain`, `Stage.takesMatches_of_descent`).

What the visits above a node leave of it is described by `Tree.Thinned i n`: down to depth `n` some
children at index `i` are gone, and everything from there on is as it was.  A descent meets every node
thinned to the depth that its later segments go through, and not further, so the node from which a child
is taken still has its own children.
-/

namespace DocumentPath

open Selector (stagesOf)

namespace Tree

/-! ### Thinned trees -/

/-- Above depth `n` every child of `t'` is thinned from a child of `t` under the same segment, unless
its segment names an index not below `i`; from depth `n` on nothing has changed. -/
def Thinned (i : ℕ) : ℕ → Tree → Tree → Prop
  | 0, t, t' => t' = t
  | n + 1, t, t' => ∀ s c', t'.child? s = some c' → ∃ s' c, t.child? s' = some c ∧ Thinned i n c c'
    ∧ ((∀ k, s.index? = some k → k < i) → s' = s)

/-- Every tree is thinned from itself. -/
lemma thinned_self (i n : ℕ) (t : Tree) : Thinned i n t t := by
  induction n generalizing t with
  | zero => rfl
  | succ n ih => exact fun s c' hc' => ⟨s, c', hc', ih c', fun _ => rfl⟩

/-- What is thinned above a depth is thinned above a greater one. -/
lemma Thinned.succ {i n : ℕ} {t t' : Tree} (h : Thinned i n t t') : Thinned i (n + 1) t t' := by
  induction n generalizing t t' with
  | zero =>
    obtain rfl : t' = t := h
    exact thinned_self i 1 t'
  | succ n ih =>
    intro s c' hc'
    obtain ⟨s', c, hc, hthin, hsame⟩ := h s c' hc'
    exact ⟨s', c, hc, ih hthin, hsame⟩

/-- Every child of a thinned tree is thinned from some child. -/
lemma Thinned.exists_child? {i n : ℕ} {t t' c' : Tree} (h : Thinned i (n + 1) t t')
    (ht' : t'.Sound) (hc' : c' ∈ t'.children) : ∃ s c, t.child? s = some c ∧ Thinned i n c c' := by
  obtain ⟨s', hs'⟩ := ht'.exists_child? hc'
  obtain ⟨s, c, hc, hthin, -⟩ := h s' c' hs'
  exact ⟨s, c, hc, hthin⟩

/-- Thinning one child further thins the tree. -/
lemma Thinned.putChild {i n : ℕ} {t t' c u : Tree} {s : Segment} (h : Thinned i n t t')
    (ht' : t'.Sound) (hc : t.child? s = some c) (hu : Thinned i n c u) :
    Thinned i (n + 1) t (t'.putChild s u) := by
  intro s₀ c₀ hc₀
  rw [child?_putChild ht', Option.map_eq_some_iff] at hc₀
  obtain ⟨c₁, hc₁, rfl⟩ := hc₀
  by_cases hs₀ : s₀ = s
  · rw [if_pos hs₀]
    exact ⟨s, c, hc, hu, fun _ => hs₀.symm⟩
  · rw [if_neg hs₀]
    exact h.succ s₀ c₁ hc₁

/-- Thinning all children further thins the tree. -/
lemma Thinned.mapChildren {i m n : ℕ} {t t' : Tree} {g : Tree → Tree} (h : Thinned i (m + 1) t t')
    (hg : ∀ c' ∈ t'.children, ∀ c, Thinned i m c c' → Thinned i n c (g c')) :
    Thinned i (n + 1) t (t'.mapChildren g) := by
  intro s₀ c₀ hc₀
  rw [child?_mapChildren, Option.map_eq_some_iff] at hc₀
  obtain ⟨c', hc', rfl⟩ := hc₀
  obtain ⟨s, c, hc, hthin, hsame⟩ := h s₀ c' hc'
  exact ⟨s, c, hc, hg c' (mem_children_of_child? hc') c hthin, hsame⟩

end Tree

namespace Removal

open Run (Returns)
open Stage (Selects)

/-! ### One visit -/

/-- Changing all children comes to some result if changing each child does. -/
lemma exists_returns_fromChildren {f : Tree → Run Removal} {P : Tree → Removal → Prop} {t : Tree}
    (h : ∀ c ∈ t.children, ∃ r, Returns (f c) r ∧ P c r) :
    ∃ g : Tree → Removal, (∀ c ∈ t.children, P c (g c)) ∧ Returns (fromChildren f t)
      ⟨t.children.flatMap fun c => (g c).removed, t.mapChildren fun c => (g c).tree⟩ := by
  have : Nonempty Removal := ⟨none t⟩
  choose! g hg using h
  exact ⟨g, fun c hc => (hg c hc).2, returns_fromChildren fun c hc => (hg c hc).1⟩

/-- Taking a child at an index thins the tree at its root, and takes a match if it takes anything. -/
lemma thinned_ofPointer {k : Segment} {i : ℕ} (hk : k.index? = some i) {t : Tree}
    (ht : t.WellFormed) : (ofPointer ⟨[k]⟩ t).tree.WellFormed
      ∧ (∀ x ∈ (ofPointer ⟨[k]⟩ t).removed,
          ∃ q, Selects (stagesOf [.key k]) q ∧ t.at? q = some x)
      ∧ t.Thinned i 1 (ofPointer ⟨[k]⟩ t).tree := by
  cases htake : t.takeChild? k with
  | none =>
    rw [ofPointer_eq_none htake]
    exact ⟨ht, fun x hx => absurd hx List.not_mem_nil, Tree.thinned_self i 1 t⟩
  | some r =>
    obtain ⟨v, t'⟩ := r
    obtain ⟨hv, hwf, hchildren⟩ := Tree.takeChild?_cases ht hk htake
    rw [ofPointer_eq htake]
    refine ⟨hwf, fun x hx => ?_, fun s c hc => ?_⟩
    · rw [List.mem_singleton.mp hx]
      exact ⟨[k], Stage.selects_stagesOf_key.mpr ⟨[], Stage.selects_terminal_iff.mpr rfl, rfl⟩,
        Tree.at?_cons_eq_some_iff.mpr ⟨v, hv, rfl⟩⟩
    · obtain ⟨s', hs', hsame⟩ := hchildren s c hc
      exact ⟨s', c, hs', rfl, hsame⟩

/-- Taking a child at an index after a path without descents: on a tree that has been thinned only above
the node from which the child is taken, that child is a match, and the tree is then thinned down to that
node. -/
theorem exists_returns_visit {k : Segment} {i : ℕ} (hk : k.index? = some i) {path : List Step}
    (hdirect : .descent ∉ path) (hlow : ∀ s j, .key s ∈ path → s.index? = some j → j < i) {t' : Tree}
    (ht' : t'.WellFormed) : ∃ r, Returns (ofStages (stagesOf (path ++ [.key k])) t') r
      ∧ r.tree.WellFormed ∧ ∀ t : Tree, t.Thinned i path.length t' →
        (∀ x ∈ r.removed, ∃ q, Selects (stagesOf (path ++ [.key k])) q ∧ t.at? q = some x)
          ∧ t.Thinned i (path.length + 1) r.tree := by
  induction path generalizing t' with
  | nil =>
    obtain ⟨hwf, hmatch, hthin⟩ := thinned_ofPointer hk ht'
    refine ⟨ofPointer ⟨[k]⟩ t', Run.returns_pure _, hwf, fun t ht => ?_⟩
    obtain rfl : t' = t := ht
    exact ⟨hmatch, hthin⟩
  | cons step path ih =>
    have hne : path ++ [.key k] ≠ [] := by simp
    have hrest := fun (c : Tree) (hc : c.WellFormed) =>
      ih (fun h => hdirect (List.mem_cons_of_mem _ h))
        (fun s j hs => hlow s j (List.mem_cons_of_mem _ hs)) hc
    cases step with
    | descent => exact absurd List.mem_cons_self hdirect
    | key s =>
      cases hc : t'.child? s with
      | none =>
        refine ⟨none t', ?_, ht', fun t ht => ⟨fun x hx => absurd hx List.not_mem_nil, ht.succ⟩⟩
        rw [List.cons_append, ofStages_stagesOf_key_of_none hc]
        exact Run.returns_pure _
      | some c' =>
        obtain ⟨r, hr, hwf, hmatch⟩ := hrest c' (ht'.child hc)
        refine ⟨_, returns_stagesOf_key hne hc hr, Tree.wellFormed_putChild ht' hwf s, ?_⟩
        intro t ht
        obtain ⟨s', c, hc', hthin, hsame⟩ := ht s c' hc
        obtain rfl := hsame fun j hj => hlow s j List.mem_cons_self hj
        refine ⟨fun x hx => ?_, ht.putChild ht'.sound hc' (hmatch c hthin).2⟩
        obtain ⟨q, hq, hat⟩ := (hmatch c hthin).1 x hx
        exact ⟨s' :: q, Stage.selects_stagesOf_key.mpr ⟨q, hq, rfl⟩,
          Tree.at?_cons_eq_some_iff.mpr ⟨c, hc', hat⟩⟩
    | wildcard =>
      obtain ⟨g, hg, hreturns⟩ := exists_returns_fromChildren fun c' hc' =>
        hrest c' (((Tree.wellFormed_iff _).mp ht').2 c' hc')
      rw [List.cons_append, stagesOf, ofStages_wildcard (Stage.stagesOf_ne_terminal hne)]
      refine ⟨_, hreturns, Tree.wellFormed_mapChildren ht' fun c' hc' => (hg c' hc').1, ?_⟩
      intro t ht
      refine ⟨fun x hx => ?_, ht.mapChildren fun c' hc' c hthin => ((hg c' hc').2 c hthin).2⟩
      obtain ⟨c', hc', hx⟩ := List.mem_flatMap.mp hx
      obtain ⟨s, c, hchild, hthin⟩ := ht.exists_child? ht'.sound hc'
      obtain ⟨q, hq, hat⟩ := ((hg c' hc').2 c hthin).1 x hx
      exact ⟨s :: q, Stage.selects_wildcard_iff.mpr ⟨s, q, hq, rfl⟩,
        Tree.at?_cons_eq_some_iff.mpr ⟨c, hchild, hat⟩⟩

/-- Going downwards with such visits takes matches of the descent only. -/
theorem exists_returns_downwards {k : Segment} {i : ℕ} (hk : k.index? = some i) {path : List Step}
    (hdirect : .descent ∉ path) (hlow : ∀ s j, .key s ∈ path → s.index? = some j → j < i)
    (depth : ℕ) {t' : Tree} (ht' : t'.WellFormed) :
    ∃ r, Returns (downwards (ofStages (stagesOf (path ++ [.key k]))) depth t') r
      ∧ ∀ t : Tree, t.Thinned i path.length t' → ∀ x ∈ r.removed,
        ∃ q, Selects (.descent :: stagesOf (path ++ [.key k])) q ∧ t.at? q = some x := by
  induction depth generalizing t' with
  | zero =>
    obtain ⟨r, hr, -, hmatch⟩ := exists_returns_visit hk hdirect hlow ht'
    refine ⟨r, hr, fun t ht x hx => ?_⟩
    obtain ⟨q, hq, hat⟩ := (hmatch t ht).1 x hx
    exact ⟨q, Stage.selects_descent_iff_or.mpr (.inl hq), hat⟩
  | succ depth ih =>
    obtain ⟨r, hr, hwf, hmatch⟩ := exists_returns_visit hk hdirect hlow ht'
    obtain ⟨g, hg, hreturns⟩ := exists_returns_fromChildren fun c' hc' =>
      ih (((Tree.wellFormed_iff _).mp hwf).2 c' hc')
    refine ⟨_, returns_downwards_succ hr hreturns, fun t ht x hx => ?_⟩
    obtain ⟨hhere, hthin⟩ := hmatch t ht
    rcases List.mem_append.mp hx with hx | hx
    · obtain ⟨q, hq, hat⟩ := hhere x hx
      exact ⟨q, Stage.selects_descent_iff_or.mpr (.inl hq), hat⟩
    · obtain ⟨c', hc', hx⟩ := List.mem_flatMap.mp hx
      obtain ⟨s, c, hchild, hbelow⟩ := hthin.exists_child? hwf.sound hc'
      obtain ⟨q, hq, hat⟩ := hg c' hc' c hbelow x hx
      exact ⟨s :: q, Stage.selects_descent_iff_or.mpr
        (.inr (Stage.selects_wildcard_iff.mpr ⟨s, q, hq, rfl⟩)),
        Tree.at?_cons_eq_some_iff.mpr ⟨c, hchild, hat⟩⟩

end Removal

namespace Stage

open Run (Returns)
open Removal (ofStages)

/-! ### Selectors that take matches only -/

/-- Removing through the stages takes nothing from the tree that they do not match. -/
def TakesMatches (stages : List Stage) (t : Tree) : Prop :=
  ∃ r, Returns (ofStages stages t) r ∧ ∀ x ∈ r.removed, ∃ q, Selects stages q ∧ t.at? q = some x

/-- Segments before a path that are no descents make no difference. -/
theorem takesMatches_append {path : List Step} (hpath : path ≠ [])
    (h : ∀ t : Tree, t.WellFormed → TakesMatches (stagesOf path) t) {pre : List Step}
    (hpre : .descent ∉ pre) {t : Tree} (ht : t.WellFormed) :
    TakesMatches (stagesOf (pre ++ path)) t := by
  induction pre generalizing t with
  | nil => exact h t ht
  | cons step pre ih =>
    have hne : pre ++ path ≠ [] := by simp [hpath]
    have hrest : ∀ {c : Tree}, c.WellFormed → TakesMatches (stagesOf (pre ++ path)) c := fun hc =>
      ih (fun h => hpre (List.mem_cons_of_mem _ h)) hc
    cases step with
    | descent => exact absurd List.mem_cons_self hpre
    | key s =>
      cases hc : t.child? s with
      | none =>
        refine ⟨.none t, ?_, fun x hx => absurd hx List.not_mem_nil⟩
        rw [List.cons_append, Removal.ofStages_stagesOf_key_of_none hc]
        exact Run.returns_pure _
      | some c =>
        obtain ⟨r, hr, hmatch⟩ := hrest (ht.child hc)
        refine ⟨_, Removal.returns_stagesOf_key hne hc hr, fun x hx => ?_⟩
        obtain ⟨q, hq, hat⟩ := hmatch x hx
        exact ⟨s :: q, selects_stagesOf_key.mpr ⟨q, hq, rfl⟩,
          Tree.at?_cons_eq_some_iff.mpr ⟨c, hc, hat⟩⟩
    | wildcard =>
      obtain ⟨g, hg, hreturns⟩ := Removal.exists_returns_fromChildren fun c hc =>
        hrest (((Tree.wellFormed_iff _).mp ht).2 c hc)
      rw [List.cons_append, stagesOf, TakesMatches,
        Removal.ofStages_wildcard (stagesOf_ne_terminal hne)]
      refine ⟨_, hreturns, fun x hx => ?_⟩
      obtain ⟨c, hc, hx⟩ := List.mem_flatMap.mp hx
      obtain ⟨s, hs⟩ := ht.sound.exists_child? hc
      obtain ⟨q, hq, hat⟩ := hg c hc x hx
      exact ⟨s :: q, selects_wildcard_iff.mpr ⟨s, q, hq, rfl⟩,
        Tree.at?_cons_eq_some_iff.mpr ⟨c, hs, hat⟩⟩

/-- Without a descent a path that ends at an index takes matches only. -/
theorem takesMatches_of_direct {k : Segment} {i : ℕ} (hk : k.index? = some i) {path : List Step}
    (hdirect : .descent ∉ path) {t : Tree} (ht : t.WellFormed) :
    TakesMatches (stagesOf (path ++ [.key k])) t := by
  refine takesMatches_append (by simp) (fun c hc => ?_) hdirect ht
  have hnone : .descent ∉ ([] : List Step) := List.not_mem_nil
  obtain ⟨r, hr, -, hmatch⟩ := Removal.exists_returns_visit hk hnone (by simp) hc
  exact ⟨r, hr, (hmatch c rfl).1⟩

/-- With one descent and no index after it that is not below the last one, a path that ends at an index
takes matches only. -/
theorem takesMatches_of_index {k : Segment} {i : ℕ} (hk : k.index? = some i) {pre path : List Step}
    (hpre : .descent ∉ pre) (hdirect : .descent ∉ path)
    (hlow : ∀ s j, .key s ∈ path → s.index? = some j → j < i) {t : Tree} (ht : t.WellFormed) :
    TakesMatches (stagesOf (pre ++ .descent :: (path ++ [.key k]))) t := by
  refine takesMatches_append (by simp) (fun c hc => ?_) hpre ht
  obtain ⟨r, hr, hmatch⟩ := Removal.exists_returns_downwards hk hdirect hlow c.height hc
  refine ⟨r, ?_, hmatch c (Tree.thinned_self i path.length c)⟩
  rw [stagesOf, Removal.ofStages_descent (stagesOf_ne_terminal (by simp))]
  exact hr

/-- Stages that end plainly take matches only. -/
theorem takesMatches_of_plain {stages : List Stage} (h : EndsPlainly stages) {t : Tree}
    (ht : t.WellFormed) : TakesMatches stages t := by
  refine ⟨_, Removal.returns_ofStages h ht, fun x hx => ?_⟩
  obtain ⟨q, hq, hat⟩ := List.mem_filterMap.mp hx
  exact ⟨q, ((mem_visits_iff ht).mp (mem_outermost_iff.mp hq).1).1, hat⟩

/-- A path that ends in a descent and one that ends in a wildcard there have the same stages before. -/
lemma exists_stagesOf_concat (path : List Step) : ∃ front : List Stage, .terminal ∉ front
    ∧ stagesOf (path ++ [.descent]) = front ++ [.descent, .terminal]
    ∧ stagesOf (path ++ [.wildcard]) = front ++ [.wildcard, .terminal] := by
  induction path with
  | nil => exact ⟨[], by simp, rfl, rfl⟩
  | cons step path ih =>
    obtain ⟨front, hfront, hdescent, hwildcard⟩ := ih
    cases step with
    | wildcard =>
      refine ⟨.wildcard :: front, by simpa using hfront, ?_, ?_⟩
      · exact congrArg (Stage.wildcard :: ·) hdescent
      · exact congrArg (Stage.wildcard :: ·) hwildcard
    | descent =>
      refine ⟨.descent :: front, by simpa using hfront, ?_, ?_⟩
      · exact congrArg (Stage.descent :: ·) hdescent
      · exact congrArg (Stage.descent :: ·) hwildcard
    | key s =>
      rw [List.cons_append, List.cons_append, stagesOf, stagesOf, hdescent, hwildcard]
      cases front with
      | nil => exact ⟨[.literal ⟨[s]⟩], by simp, rfl, rfl⟩
      | cons stage front =>
        cases stage with
        | literal p => exact ⟨.literal ⟨s :: p.segments⟩ :: front, by simpa using hfront, rfl, rfl⟩
        | wildcard => exact ⟨.literal ⟨[s]⟩ :: .wildcard :: front, by simpa using hfront, rfl, rfl⟩
        | descent => exact ⟨.literal ⟨[s]⟩ :: .descent :: front, by simpa using hfront, rfl, rfl⟩
        | terminal => exact absurd List.mem_cons_self hfront

/-- At its end a descent removes what a wildcard removes. -/
lemma ofStages_concat_descent {front : List Stage} (h : .terminal ∉ front) (t : Tree) :
    ofStages (front ++ [.descent, .terminal]) t = ofStages (front ++ [.wildcard, .terminal]) t := by
  induction front generalizing t with
  | nil => rfl
  | cons stage front ih =>
    have hrest : ofStages (front ++ [.descent, .terminal])
        = ofStages (front ++ [.wildcard, .terminal]) :=
      funext (ih fun hmem => h (List.mem_cons_of_mem _ hmem))
    have hne : ∀ stage : Stage, front ++ [stage, .terminal] ≠ [.terminal] := by
      intro stage heq
      have := congrArg List.length heq
      simp at this
    cases stage with
    | terminal => exact absurd List.mem_cons_self h
    | literal p =>
      rw [List.cons_append, List.cons_append, Removal.ofStages_literal (hne _),
        Removal.ofStages_literal (hne _), hrest]
    | wildcard =>
      rw [List.cons_append, List.cons_append, Removal.ofStages_wildcard (hne _),
        Removal.ofStages_wildcard (hne _), hrest]
    | descent =>
      rw [List.cons_append, List.cons_append, Removal.ofStages_descent (hne _),
        Removal.ofStages_descent (hne _), hrest]

/-- Stages that end in a wildcard end plainly. -/
lemma endsPlainly_concat_wildcard {front : List Stage} (h : .terminal ∉ front) :
    EndsPlainly (front ++ [.wildcard, .terminal]) := by
  induction front with
  | nil => exact .wildcard
  | cons stage front ih =>
    refine .cons (fun heq => h (heq ▸ List.mem_cons_self)) (ih fun hmem => ?_)
    exact h (List.mem_cons_of_mem _ hmem)

/-- What a wildcard selects in the place of a last descent is selected by the descent. -/
lemma Selects.concat_descent {front : List Stage} (h : .terminal ∉ front) {q : List Segment}
    (hq : Selects (front ++ [.wildcard, .terminal]) q) :
    Selects (front ++ [.descent, .terminal]) q := by
  induction front generalizing q with
  | nil =>
    exact selects_descent_iff_or.mpr (.inr (by
      obtain ⟨s, r, hr, rfl⟩ := selects_wildcard_iff.mp hq
      exact selects_wildcard_iff.mpr ⟨s, r, selects_descent_iff_or.mpr (.inl hr), rfl⟩))
  | cons stage front ih =>
    have hstage : stage ≠ .terminal := fun heq => h (heq ▸ List.mem_cons_self)
    obtain ⟨w, r, hw, hr, rfl⟩ := (selects_cons_iff hstage).mp hq
    exact (selects_cons_iff hstage).mpr
      ⟨w, r, hw, ih (fun hmem => h (List.mem_cons_of_mem _ hmem)) hr, rfl⟩

/-- A path that ends in a wildcard or a descent takes matches only. -/
theorem takesMatches_of_descent (path : List Step) {t : Tree} (ht : t.WellFormed) :
    TakesMatches (stagesOf (path ++ [.wildcard])) t
      ∧ TakesMatches (stagesOf (path ++ [.descent])) t := by
  obtain ⟨front, hfront, hdescent, hwildcard⟩ := exists_stagesOf_concat path
  obtain ⟨r, hr, hmatch⟩ := takesMatches_of_plain (endsPlainly_concat_wildcard hfront) ht
  rw [hdescent, hwildcard]
  refine ⟨⟨r, hr, hmatch⟩, r, by rwa [ofStages_concat_descent hfront], fun x hx => ?_⟩
  obtain ⟨q, hq, hat⟩ := hmatch x hx
  exact ⟨q, hq.concat_descent hfront, hat⟩

/-- A path that ends in a key that names no index ends plainly. -/
lemma endsPlainly_stagesOf_key {k : Segment} (hk : k.isIndex = false) (path : List Step) :
    EndsPlainly (stagesOf (path ++ [.key k])) := by
  induction path with
  | nil => exact .literal (k := k) rfl hk
  | cons step path ih =>
    cases step with
    | wildcard => exact .cons (by simp) ih
    | descent => exact .cons (by simp) ih
    | key s =>
      rw [List.cons_append, stagesOf]
      split
      · next p rest hstages =>
        rw [hstages] at ih
        cases ih with
        | @literal _ k' hk' hplain =>
          refine .literal (k := k') ?_ hplain
          obtain ⟨w, hw⟩ := List.getLast?_eq_some_iff.mp hk'
          rw [Pointer.tail?, hw, ← List.cons_append, List.getLast?_concat]
        | cons _ hrest => exact .cons (by simp) hrest
      · exact .cons (by simp) ih

end Stage

end DocumentPath
