import Mathlib
import DocumentPath.Proofs.Matches
import DocumentPath.Selector.Change

/-!
# The locations that a copy visits

`Stage.targets` lists the locations that a copy goes to in a source, in their order.  Without the shortcut
they are the locations that the stages select, once for every split (`targets_eq_map_flatten`); with the
shortcut some of them are left out, but each of these lies below one that is listed
(`exists_direct_target_above`).

Selectors with `Stage.PlainAfterDescent` list their targets in the order of `Tree.Precedes`
(`pairwise_targets`): after a descent they have nothing but keys that name no index.
-/

namespace DocumentPath

namespace Stage

/-! ### Which locations are listed -/

/-- The locations that a list of stages matches in a source, in the order of copying. -/
def targets (direct : Bool) : List Stage → Tree → List (List Segment)
  | [], _ => []
  | .terminal :: _, _ => [[]]
  | .literal p :: rest, t =>
    (p.at? t).elim [] fun c => (targets direct rest c).map (p.segments ++ ·)
  | .wildcard :: rest, t =>
    t.members.flatMap fun (s, c) => (targets direct rest c).map (s :: ·)
  | .descent :: rest, t =>
    if direct && rest = [.terminal] then [[]]
    else
      (PathTree.ofTree t).paths.flatMap fun path =>
        (t.at? path).elim [] fun c => (targets direct rest c).map (path ++ ·)

/-- Without the shortcut the targets are the ends of the splits. -/
theorem targets_eq_map_flatten {stages : List Stage} {t : Tree} (ht : t.WellFormed) :
    targets false stages t = (splits stages t).map List.flatten := by
  induction stages generalizing t with
  | nil => rfl
  | cons stage rest ih =>
    cases stage with
    | terminal => rfl
    | literal p =>
      cases hc : p.at? t with
      | none =>
        rw [splits_literal_eq_none hc, targets, hc]
        rfl
      | some c =>
        rw [splits_literal_eq_some hc, targets, hc, Option.elim_some, ih (ht.at hc), List.map_map,
          List.map_map]
        rfl
    | wildcard =>
      rw [splits, targets, List.map_flatMap]
      refine List.flatMap_congr fun m hm => ?_
      change (targets false rest m.2).map (m.1 :: ·) = _
      rw [ih (ht.child ((Tree.mem_members_iff ht.sound).mp hm)), List.map_map, List.map_map]
      rfl
    | descent =>
      rw [splits, targets, PathTree.paths_ofTree ht, List.map_flatMap]
      rw [if_neg (by simp)]
      refine List.flatMap_congr fun w _ => ?_
      cases hc : t.at? w with
      | none => rfl
      | some c =>
        rw [Option.elim_some, Option.elim_some, ih (ht.at hc), List.map_map, List.map_map]
        rfl

/-- Without the shortcut the targets are the locations of the source that the stages select. -/
theorem mem_targets_iff {stages : List Stage} {t : Tree} (ht : t.WellFormed) {q : List Segment} :
    q ∈ targets false stages t ↔ Selects stages q ∧ ∃ u, t.at? q = some u := by
  rw [targets_eq_map_flatten ht, mem_map_flatten_splits_iff ht]

/-- A literal has the targets that come after its pointer. -/
lemma targets_literal_eq_some {direct : Bool} {p : Pointer} {rest : List Stage} {t c : Tree}
    (hc : p.at? t = some c) :
    targets direct (.literal p :: rest) t = (targets direct rest c).map (p.segments ++ ·) := by
  rw [targets, hc, Option.elim_some]

/-- A literal whose pointer leads nowhere has no targets. -/
lemma targets_literal_eq_none {direct : Bool} {p : Pointer} {rest : List Stage} {t : Tree}
    (hc : p.at? t = none) : targets direct (.literal p :: rest) t = [] := by
  rw [targets, hc, Option.elim_none]

/-- A wildcard has the targets of each of the members. -/
lemma targets_wildcard (direct : Bool) (rest : List Stage) (t : Tree) :
    targets direct (.wildcard :: rest) t
      = t.members.flatMap fun m => (targets direct rest m.2).map (m.1 :: ·) := rfl

/-- By the shortcut a descent that ends the path has the node itself as its target. -/
lemma targets_descent_terminal (t : Tree) : targets true [.descent, .terminal] t = [[]] := by
  rw [targets, if_pos (by simp)]

/-- A descent that does not take the shortcut has the targets of all locations below. -/
lemma targets_descent {direct : Bool} {rest : List Stage} (h : ¬ (direct ∧ rest = [.terminal]))
    {t : Tree} (ht : t.WellFormed) : targets direct (.descent :: rest) t
      = t.locations.flatMap fun w =>
          (t.at? w).elim [] fun c => (targets direct rest c).map (w ++ ·) := by
  rw [targets, PathTree.paths_ofTree ht, if_neg (by simpa using h)]

/-- What is listed at the nodes of the locations of a tree. -/
lemma mem_flatMap_locations_iff {t : Tree} (ht : t.WellFormed) {f : Tree → List (List Segment)}
    {q : List Segment} :
    (q ∈ t.locations.flatMap fun w => (t.at? w).elim [] fun c => (f c).map (w ++ ·))
      ↔ ∃ w c, t.at? w = some c ∧ ∃ q' ∈ f c, w ++ q' = q := by
  rw [List.mem_flatMap]
  constructor
  · rintro ⟨w, -, h⟩
    cases hc : t.at? w with
    | none =>
      rw [hc] at h
      exact absurd h List.not_mem_nil
    | some c =>
      rw [hc] at h
      obtain ⟨q', hq', rfl⟩ := List.mem_map.mp h
      exact ⟨w, c, hc, q', hq', rfl⟩
  · rintro ⟨w, c, hc, q', hq', rfl⟩
    refine ⟨w, (Tree.mem_locations_iff ht).mpr (Option.isSome_iff_exists.mpr ⟨c, hc⟩), ?_⟩
    rw [hc]
    exact List.mem_map_of_mem hq'

/-- With the shortcut nothing is listed that is not listed without it. -/
theorem mem_targets_of_direct {stages : List Stage} {t : Tree} (ht : t.WellFormed)
    {q : List Segment} (hq : q ∈ targets true stages t) : q ∈ targets false stages t := by
  induction stages generalizing t q with
  | nil => exact hq
  | cons stage rest ih =>
    cases stage with
    | terminal => exact hq
    | literal p =>
      cases hc : p.at? t with
      | none =>
        rw [targets_literal_eq_none hc] at hq
        exact absurd hq List.not_mem_nil
      | some c =>
        rw [targets_literal_eq_some hc] at hq ⊢
        obtain ⟨q', hq', rfl⟩ := List.mem_map.mp hq
        exact List.mem_map_of_mem (ih (ht.at hc) hq')
    | wildcard =>
      rw [targets_wildcard] at hq ⊢
      obtain ⟨m, hm, h⟩ := List.mem_flatMap.mp hq
      obtain ⟨q', hq', rfl⟩ := List.mem_map.mp h
      have hchild : t.child? m.1 = some m.2 := (Tree.mem_members_iff ht.sound).mp hm
      exact List.mem_flatMap.mpr ⟨m, hm, List.mem_map_of_mem (ih (ht.child hchild) hq')⟩
    | descent =>
      rw [targets_descent (by simp) ht, mem_flatMap_locations_iff ht]
      by_cases hrest : rest = [.terminal]
      · rw [hrest, targets_descent_terminal, List.mem_singleton] at hq
        refine ⟨[], t, rfl, [], ?_, hq.symm⟩
        rw [hrest]
        exact List.mem_singleton_self _
      · rw [targets_descent (by simpa using hrest) ht, mem_flatMap_locations_iff ht] at hq
        obtain ⟨w, c, hc, q', hq', rfl⟩ := hq
        exact ⟨w, c, hc, q', ih (ht.at hc) hq', rfl⟩

/-- What the shortcut leaves out lies below a location that it lists. -/
theorem exists_direct_target_above {stages : List Stage} {t : Tree} (ht : t.WellFormed)
    {q : List Segment} (hq : q ∈ targets false stages t) :
    ∃ q' ∈ targets true stages t, q' <+: q := by
  induction stages generalizing t q with
  | nil => exact ⟨q, hq, List.prefix_rfl⟩
  | cons stage rest ih =>
    cases stage with
    | terminal => exact ⟨q, hq, List.prefix_rfl⟩
    | literal p =>
      cases hc : p.at? t with
      | none =>
        rw [targets_literal_eq_none hc] at hq
        exact absurd hq List.not_mem_nil
      | some c =>
        rw [targets_literal_eq_some hc] at hq ⊢
        obtain ⟨r, hr, rfl⟩ := List.mem_map.mp hq
        obtain ⟨r', hr', hpre⟩ := ih (ht.at hc) hr
        exact ⟨_, List.mem_map_of_mem hr', (List.prefix_append_right_inj _).mpr hpre⟩
    | wildcard =>
      rw [targets_wildcard] at hq ⊢
      obtain ⟨m, hm, h⟩ := List.mem_flatMap.mp hq
      obtain ⟨r, hr, rfl⟩ := List.mem_map.mp h
      have hchild : t.child? m.1 = some m.2 := (Tree.mem_members_iff ht.sound).mp hm
      obtain ⟨r', hr', hpre⟩ := ih (ht.child hchild) hr
      exact ⟨m.1 :: r', List.mem_flatMap.mpr ⟨m, hm, List.mem_map_of_mem hr'⟩,
        List.cons_prefix_cons.mpr ⟨rfl, hpre⟩⟩
    | descent =>
      rw [targets_descent (by simp) ht, mem_flatMap_locations_iff ht] at hq
      obtain ⟨w, c, hc, r, hr, rfl⟩ := hq
      by_cases hrest : rest = [.terminal]
      · rw [hrest, targets_descent_terminal]
        exact ⟨[], List.mem_singleton_self _, List.nil_prefix⟩
      · rw [targets_descent (by simpa using hrest) ht]
        obtain ⟨r', hr', hpre⟩ := ih (ht.at hc) hr
        exact ⟨w ++ r', (mem_flatMap_locations_iff ht).mpr ⟨w, c, hc, r', hr', rfl⟩,
          (List.prefix_append_right_inj _).mpr hpre⟩

/-- Every target is the location of a node. -/
lemma exists_at_of_mem_targets {direct : Bool} {stages : List Stage} {t : Tree} (ht : t.WellFormed)
    {q : List Segment} (hq : q ∈ targets direct stages t) : ∃ u, t.at? q = some u := by
  cases direct with
  | false => exact ((mem_targets_iff ht).mp hq).2
  | true => exact ((mem_targets_iff ht).mp (mem_targets_of_direct ht hq)).2

/-! ### In which order they are listed -/

/-- A stage of fixed keys that name no index, or the end. -/
def IsPlain : Stage → Prop
  | .literal p => ∀ s ∈ p.segments, s.isIndex = false
  | .terminal => True
  | .wildcard | .descent => False

instance : (stage : Stage) → Decidable stage.IsPlain
  | .literal p => inferInstanceAs (Decidable (∀ s ∈ p.segments, s.isIndex = false))
  | .terminal => .isTrue trivial
  | .wildcard | .descent => .isFalse id

/-- Every stage after a descent is plain; in particular there is at most one descent. -/
def PlainAfterDescent : List Stage → Prop
  | [] => True
  | .descent :: rest => ∀ stage ∈ rest, stage.IsPlain
  | _ :: rest => PlainAfterDescent rest

instance decidablePlainAfterDescent : (stages : List Stage) → Decidable (PlainAfterDescent stages)
  | [] => .isTrue trivial
  | .descent :: rest => inferInstanceAs (Decidable (∀ stage ∈ rest, stage.IsPlain))
  | .literal _ :: rest | .wildcard :: rest | .terminal :: rest => decidablePlainAfterDescent rest

/-- Stages without a descent in front change nothing about what comes after one. -/
lemma plainAfterDescent_append {stages rest : List Stage} (h : .descent ∉ stages) :
    PlainAfterDescent (stages ++ rest) ↔ PlainAfterDescent rest := by
  induction stages with
  | nil => rfl
  | cons stage stages ih =>
    rw [List.mem_cons, not_or] at h
    cases stage with
    | descent => exact absurd rfl h.1
    | literal | wildcard | terminal => exact ih h.2

/-- Plain stages lead to at most one location, the same from every node. -/
lemma exists_target_of_plain {stages : List Stage} (hplain : ∀ stage ∈ stages, stage.IsPlain) :
    ∃ k : List Segment, (∀ s ∈ k, s.isIndex = false) ∧
      ∀ (direct : Bool) (t : Tree) (q : List Segment), q ∈ targets direct stages t →
        targets direct stages t = [k] := by
  induction stages with
  | nil => exact ⟨[], by simp, fun _ _ _ hq => absurd hq List.not_mem_nil⟩
  | cons stage rest ih =>
    obtain ⟨k, hk, htargets⟩ := ih fun stage h => hplain stage (List.mem_cons_of_mem _ h)
    have hstage := hplain stage List.mem_cons_self
    cases stage with
    | terminal => exact ⟨[], by simp, fun _ _ _ _ => rfl⟩
    | literal p =>
      refine ⟨p.segments ++ k, ?_, ?_⟩
      · intro s hs
        rcases List.mem_append.mp hs with hs | hs
        · exact hstage s hs
        · exact hk s hs
      · intro direct t q hq
        cases hc : p.at? t with
        | none =>
          rw [targets_literal_eq_none hc] at hq
          exact absurd hq List.not_mem_nil
        | some c =>
          rw [targets_literal_eq_some hc] at hq ⊢
          obtain ⟨q', hq', -⟩ := List.mem_map.mp hq
          rw [htargets direct c q' hq', List.map_singleton]
    | wildcard => exact absurd hstage id
    | descent => exact absurd hstage id

end Stage

/-- Keys that name no index do not change the order of the locations that they are appended to. -/
lemma Tree.Precedes.append_plain {t : Tree} {w w' k : List Segment} (h : Precedes t w w')
    (hk : ∀ s ∈ k, s.isIndex = false) : Precedes t (w ++ k) (w' ++ k) := by
  refine ⟨fun hpre => h.1 ?_, ?_⟩
  · have hlen : w.length ≤ w'.length := by
      have := hpre.length_le
      simp only [List.length_append] at this
      omega
    exact List.prefix_of_prefix_length_le ((List.prefix_append w k).trans hpre)
      (List.prefix_append w' k) hlen
  · -- an index is no key of `k`, so it stands in the location before
    have hbefore : ∀ {x u : List Segment} {s : Segment} {i : ℕ}, s.index? = some i →
        u ++ [s] <+: x ++ k → u ++ [s] <+: x := by
      intro x u s i hs hpre
      by_cases hlen : x.length ≤ u.length
      · have hxu : x <+: u := List.prefix_of_prefix_length_le (List.prefix_append x k)
          ((List.prefix_append u [s]).trans hpre) hlen
        obtain ⟨u', rfl⟩ := hxu
        rw [List.append_assoc, List.prefix_append_right_inj] at hpre
        have hmem : s ∈ k := hpre.subset (by simp)
        have hindex : s.isIndex = true := by rw [Segment.isIndex, hs, Option.isSome_some]
        exact absurd hindex (by rw [hk s hmem]; exact Bool.false_ne_true)
      · refine List.prefix_of_prefix_length_le hpre (List.prefix_append x k) ?_
        rw [List.length_append, List.length_singleton]
        omega
    intro u s s' i j items hu hs hs' hp hq
    exact h.2 u s s' i j items hu hs hs' (hbefore hs hp) (hbefore hs' hq)

namespace Stage

/-- Selectors with nothing but plain stages after a descent visit their targets in order. -/
theorem pairwise_targets (direct : Bool) {stages : List Stage} (hplain : PlainAfterDescent stages)
    {t : Tree} (ht : t.WellFormed) : (targets direct stages t).Pairwise (Tree.Precedes t) := by
  induction stages generalizing t with
  | nil => exact List.Pairwise.nil
  | cons stage rest ih =>
    cases stage with
    | terminal => exact List.pairwise_singleton _ _
    | literal p =>
      cases hc : p.at? t with
      | none =>
        rw [targets_literal_eq_none hc]
        exact List.Pairwise.nil
      | some c =>
        rw [targets_literal_eq_some hc, List.pairwise_map]
        exact (ih hplain (ht.at hc)).imp fun h => h.append hc
    | wildcard =>
      rw [targets_wildcard]
      refine Tree.pairwise_flatMap_members ht.sound fun m hm => ?_
      exact ih hplain (ht.child ((Tree.mem_members_iff ht.sound).mp hm))
    | descent =>
      by_cases hdirect : direct ∧ rest = [.terminal]
      · rw [hdirect.1, hdirect.2, targets_descent_terminal]
        exact List.pairwise_singleton _ _
      · obtain ⟨k, hk, htargets⟩ := exists_target_of_plain hplain
        rw [targets_descent hdirect ht, List.pairwise_flatMap]
        -- from each node there is at most the one target `k`
        have hone : ∀ w q, q ∈ ((t.at? w).elim [] fun c => (targets direct rest c).map (w ++ ·)) →
            ((t.at? w).elim [] fun c => (targets direct rest c).map (w ++ ·)) = [w ++ k] := by
          intro w q hq
          cases hc : t.at? w with
          | none =>
            rw [hc] at hq
            exact absurd hq List.not_mem_nil
          | some c =>
            rw [hc] at hq
            obtain ⟨q', hq', -⟩ := List.mem_map.mp hq
            rw [Option.elim_some, htargets direct c q' hq', List.map_singleton]
        constructor
        · intro w _
          rcases List.eq_nil_or_concat ((t.at? w).elim [] fun c =>
            (targets direct rest c).map (w ++ ·)) with hnil | ⟨l, q, hl⟩
          · rw [hnil]
            exact List.Pairwise.nil
          · rw [hone w q (by rw [hl]; simp)]
            exact List.pairwise_singleton _ _
        · refine (Tree.pairwise_locations ht).imp ?_
          intro w w' h p hp q hq
          rw [hone w p hp, List.mem_singleton] at hp
          rw [hone w' q hq, List.mem_singleton] at hq
          rw [hp, hq]
          exact h.append_plain hk

end Stage

end DocumentPath
