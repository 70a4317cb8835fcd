import Mathlib
import DocumentPath.Proofs.Locations
import DocumentPath.Selector.Basic

/-!
# Matching locations

Which locations a selector matches, said without going through a tree.  `Stage.Splits stages pieces`
holds if the pieces stand one by one for the stages before the terminal: the segments of a literal, one
segment for a wildcard, any number for a descent.  `Stage.Selects stages q` says that the segments of `q`
can be split in this way, which several descents may allow in more than one way.

`Stage.splits` lists the splits that end at a node of a given tree.  Reading through a selector finds one
node for each of them, and no other (`Selector.all_perm_splits`).
-/

namespace DocumentPath

namespace Stage

/-- The pieces stand for the stages before the terminal, one piece for each stage. -/
inductive Splits : List Stage → List (List Segment) → Prop
  | terminal (rest : List Stage) : Splits (.terminal :: rest) []
  | literal (p : Pointer) {rest : List Stage} {pieces : List (List Segment)} :
    Splits rest pieces → Splits (.literal p :: rest) (p.segments :: pieces)
  | wildcard (s : Segment) {rest : List Stage} {pieces : List (List Segment)} :
    Splits rest pieces → Splits (.wildcard :: rest) ([s] :: pieces)
  | descent (w : List Segment) {rest : List Stage} {pieces : List (List Segment)} :
    Splits rest pieces → Splits (.descent :: rest) (w :: pieces)

/-- A list of segments that can be split along the stages. -/
def Selects (stages : List Stage) (q : List Segment) : Prop :=
  ∃ pieces, Splits stages pieces ∧ pieces.flatten = q

/-- The splits of the locations of a tree along a list of stages. -/
def splits : List Stage → Tree → List (List (List Segment))
  | [], _ => []
  | .terminal :: _, _ => [[]]
  | .literal p :: rest, t =>
    (p.at? t).elim [] fun c => (splits rest c).map (p.segments :: ·)
  | .wildcard :: rest, t =>
    t.members.flatMap fun m => (splits rest m.2).map ([m.1] :: ·)
  | .descent :: rest, t =>
    t.locations.flatMap fun w => (t.at? w).elim [] fun c => (splits rest c).map (w :: ·)

/-- A literal is split off with its pointer. -/
lemma splits_literal_eq_some {p : Pointer} {rest : List Stage} {t c : Tree} (hc : p.at? t = some c) :
    splits (.literal p :: rest) t = (splits rest c).map (p.segments :: ·) := by
  rw [splits, hc, Option.elim_some]

/-- A literal whose pointer leads nowhere has no splits. -/
lemma splits_literal_eq_none {p : Pointer} {rest : List Stage} {t : Tree} (hc : p.at? t = none) :
    splits (.literal p :: rest) t = [] := by
  rw [splits, hc, Option.elim_none]

/-- A split is listed for a tree if it leads to a node of the tree. -/
theorem mem_splits_iff {stages : List Stage} {t : Tree} (ht : t.WellFormed)
    {pieces : List (List Segment)} :
    pieces ∈ splits stages t ↔ Splits stages pieces ∧ ∃ u, t.at? pieces.flatten = some u := by
  induction stages generalizing t pieces with
  | nil =>
    refine iff_of_false (List.not_mem_nil) ?_
    rintro ⟨h, -⟩
    cases h
  | cons stage rest ih =>
    -- the first piece leads to a node, and the others on from there
    have hbelow : ∀ {w : List Segment} {c : Tree}, t.at? w = some c → ∀ {ps : List (List Segment)},
        ps ∈ splits rest c ↔ Splits rest ps ∧ ∃ u, t.at? (w :: ps).flatten = some u := by
      intro w c hc ps
      rw [List.flatten_cons, Tree.at?_append, hc, Option.bind_some]
      exact ih (ht.at hc)
    have hfirst : ∀ {w : List Segment} {ps : List (List Segment)} {u : Tree},
        t.at? (w :: ps).flatten = some u → ∃ c, t.at? w = some c := fun hu =>
      Tree.exists_at?_of_isPrefix (List.prefix_append _ _) hu
    cases stage with
    | terminal =>
      rw [splits, List.mem_singleton]
      constructor
      · rintro rfl
        exact ⟨.terminal rest, t, rfl⟩
      · rintro ⟨h, -⟩
        cases h
        rfl
    | literal p =>
      constructor
      · intro h
        cases hc : p.at? t with
        | none =>
          rw [splits_literal_eq_none hc] at h
          exact absurd h List.not_mem_nil
        | some c =>
          rw [splits_literal_eq_some hc] at h
          obtain ⟨ps, hps, rfl⟩ := List.mem_map.mp h
          exact ((hbelow hc).mp hps).imp_left (.literal p)
      · rintro ⟨h, u, hu⟩
        cases h with
        | literal _ hsplits =>
          obtain ⟨c, hc⟩ := hfirst hu
          rw [splits_literal_eq_some (show p.at? t = some c from hc)]
          exact List.mem_map_of_mem ((hbelow hc).mpr ⟨hsplits, u, hu⟩)
    | wildcard =>
      rw [splits, List.mem_flatMap]
      constructor
      · rintro ⟨m, hm, h⟩
        have hchild : t.child? m.1 = some m.2 := (Tree.mem_members_iff ht.sound).mp hm
        obtain ⟨ps, hps, rfl⟩ := List.mem_map.mp h
        rw [← Tree.at?_singleton] at hchild
        exact ((hbelow hchild).mp hps).imp_left (.wildcard m.1)
      · rintro ⟨h, u, hu⟩
        cases h with
        | wildcard s hsplits =>
          obtain ⟨c, hc⟩ := hfirst hu
          have hmem : (s, c) ∈ t.members :=
            (Tree.mem_members_iff ht.sound).mpr (Tree.at?_singleton t s ▸ hc)
          exact ⟨(s, c), hmem, List.mem_map_of_mem ((hbelow hc).mpr ⟨hsplits, u, hu⟩)⟩
    | descent =>
      rw [splits, List.mem_flatMap]
      constructor
      · rintro ⟨w, hw, h⟩
        obtain ⟨c, hc⟩ := Option.isSome_iff_exists.mp ((Tree.mem_locations_iff ht).mp hw)
        rw [hc, Option.elim_some] at h
        obtain ⟨ps, hps, rfl⟩ := List.mem_map.mp h
        exact ((hbelow hc).mp hps).imp_left (.descent w)
      · rintro ⟨h, u, hu⟩
        cases h with
        | descent w hsplits =>
          obtain ⟨c, hc⟩ := hfirst hu
          refine ⟨w, (Tree.mem_locations_iff ht).mpr (Option.isSome_iff_exists.mpr ⟨c, hc⟩), ?_⟩
          rw [hc, Option.elim_some]
          exact List.mem_map_of_mem ((hbelow hc).mpr ⟨hsplits, u, hu⟩)

/-- The locations with a listed split are the selected locations of the tree. -/
lemma mem_map_flatten_splits_iff {stages : List Stage} {t : Tree} (ht : t.WellFormed)
    {q : List Segment} :
    q ∈ (splits stages t).map List.flatten ↔ Selects stages q ∧ ∃ u, t.at? q = some u := by
  rw [List.mem_map]
  constructor
  · rintro ⟨pieces, h, rfl⟩
    obtain ⟨hsplits, hat⟩ := (mem_splits_iff ht).mp h
    exact ⟨⟨pieces, hsplits, rfl⟩, hat⟩
  · rintro ⟨⟨pieces, hsplits, rfl⟩, hat⟩
    exact ⟨pieces, (mem_splits_iff ht).mpr ⟨hsplits, hat⟩, rfl⟩

/-- No split is listed twice. -/
theorem nodup_splits {stages : List Stage} {t : Tree} (ht : t.WellFormed) :
    (splits stages t).Nodup := by
  induction stages generalizing t with
  | nil => exact List.nodup_nil
  | cons stage rest ih =>
    -- pieces after different first pieces make different splits
    have hmap : ∀ (w : List Segment) {c : Tree}, c.WellFormed →
        ((splits rest c).map (w :: ·)).Nodup := fun w c hc =>
      (ih hc).map fun _ _ h => (List.cons.inj h).2
    have hhead : ∀ {w w' : List Segment} {l l' : List (List (List Segment))}, w ≠ w' →
        ∀ a ∈ l.map (w :: ·), ∀ b ∈ l'.map (w' :: ·), a ≠ b := by
      intro w w' l l' hne a ha b hb
      obtain ⟨ps, -, rfl⟩ := List.mem_map.mp ha
      obtain ⟨ps', -, rfl⟩ := List.mem_map.mp hb
      exact fun h => hne (List.cons.inj h).1
    cases stage with
    | terminal => exact List.nodup_singleton _
    | literal p =>
      cases hc : p.at? t with
      | none =>
        rw [splits_literal_eq_none hc]
        exact List.nodup_nil
      | some c =>
        rw [splits_literal_eq_some hc]
        exact hmap p.segments (ht.at hc)
    | wildcard =>
      rw [splits]
      refine List.pairwise_flatMap.mpr ⟨fun m hm => ?_, ?_⟩
      · exact hmap [m.1] (ht.child ((Tree.mem_members_iff ht.sound).mp hm))
      · refine (List.pairwise_map.mp (Tree.nodup_members ht.sound)).imp ?_
        intro m m' hne
        exact hhead fun h => hne (List.cons.inj h).1
    | descent =>
      rw [splits]
      refine List.pairwise_flatMap.mpr ⟨fun w _ => ?_, ?_⟩
      · cases hc : t.at? w with
        | none => exact List.nodup_nil
        | some c => exact hmap w (ht.at hc)
      · refine (Tree.nodup_locations ht).imp ?_
        intro w w' hne
        cases t.at? w with
        | none => exact fun a ha => absurd ha List.not_mem_nil
        | some c =>
          cases t.at? w' with
          | none => exact fun a _ b hb => absurd hb List.not_mem_nil
          | some c' => exact hhead hne

/-- The nodes that a list of stages matches are those at the ends of its splits. -/
theorem perm_matches_splits {stages : List Stage} {t : Tree} (ht : t.WellFormed) :
    ((Stage.matches stages t).map some).Perm
      ((splits stages t).map fun pieces => t.at? pieces.flatten) := by
  induction stages generalizing t with
  | nil => exact List.Perm.refl _
  | cons stage rest ih =>
    have hbelow : ∀ {w : List Segment} {c : Tree}, t.at? w = some c →
        ((Stage.matches rest c).map some).Perm
          (((splits rest c).map (w :: ·)).map fun pieces => t.at? pieces.flatten) := by
      intro w c hc
      have hat : (fun pieces : List (List Segment) => t.at? pieces.flatten) ∘ (w :: ·)
          = fun pieces => c.at? pieces.flatten := by
        funext pieces
        rw [Function.comp_apply, List.flatten_cons, Tree.at?_append, hc, Option.bind_some]
      rw [List.map_map, hat]
      exact ih (ht.at hc)
    cases stage with
    | terminal => exact List.Perm.refl _
    | literal p =>
      cases hc : p.at? t with
      | none =>
        rw [splits_literal_eq_none hc, Stage.matches, hc]
        exact List.Perm.refl _
      | some c =>
        rw [splits_literal_eq_some hc, Stage.matches, hc]
        exact hbelow hc
    | wildcard =>
      rw [Stage.matches, splits, ← Tree.map_snd_members, List.flatMap_map, List.map_flatMap,
        List.map_flatMap]
      refine List.Perm.flatMap_left _ fun m hm => ?_
      exact hbelow (Tree.at?_cons_eq_some_iff.mpr ⟨m.2, (Tree.mem_members_iff ht.sound).mp hm, rfl⟩)
    | descent =>
      -- the nodes are visited in another order than their locations are listed
      have hnodes : ((Stage.matches (.descent :: rest) t).map some).Perm
          ((t.locations.map t.at?).flatMap fun o =>
            o.elim [] fun c => (Stage.matches rest c).map some) := by
        rw [Stage.matches, List.map_flatMap]
        have hsome : (t.nodes.flatMap fun c => (Stage.matches rest c).map some)
            = (t.nodes.map some).flatMap fun o =>
              o.elim [] fun c => (Stage.matches rest c).map some := by
          rw [List.flatMap_map]
          rfl
        rw [hsome]
        exact (Tree.perm_nodes_locations ht).flatMap_right _
      refine hnodes.trans ?_
      rw [splits, List.map_flatMap, List.flatMap_map]
      refine List.Perm.flatMap_left _ fun w _ => ?_
      cases hc : t.at? w with
      | none => exact List.Perm.refl _
      | some c => exact hbelow hc

end Stage

namespace Selector

/-- The selectors that come to a single pointer. -/
lemma asPointer?_eq_some_iff {s : Selector} {p : Pointer} :
    s.asPointer? = some p ↔ s.stages = [.literal p, .terminal] := by
  unfold asPointer?
  split
  · next q hq => simp [hq]
  · next hne =>
    refine iff_of_false (by simp) ?_
    exact fun h => hne p h

/-- Reading through a selector goes along its stages, also when it takes the short way of a selector
without wildcards. -/
lemma all_eq_matches (s : Selector) (t : Tree) : s.all t = Stage.matches s.stages t := by
  unfold all
  cases hp : s.asPointer? with
  | none => rfl
  | some p =>
    rw [asPointer?_eq_some_iff.mp hp, Stage.matches]
    change (p.at? t).toList = _
    cases p.at? t <;> rfl

/-- Reading through a selector returns one node for every way of splitting a location of the tree along
the stages, and nothing else. -/
theorem all_perm_splits (s : Selector) {t : Tree} (ht : t.WellFormed) :
    ∃ ways : List (List (List Segment)), ways.Nodup
      ∧ (∀ pieces, pieces ∈ ways ↔
          Stage.Splits s.stages pieces ∧ ∃ u, t.at? pieces.flatten = some u)
      ∧ ((s.all t).map some).Perm (ways.map fun pieces => t.at? pieces.flatten) := by
  refine ⟨Stage.splits s.stages t, Stage.nodup_splits ht, fun _ => Stage.mem_splits_iff ht, ?_⟩
  rw [all_eq_matches]
  exact Stage.perm_matches_splits ht

/-- Two descents find the item of `{"a": [null]}` in three ways, and in all six nodes. -/
theorem all_perm_splits_two_descents : ∃ (s : Selector) (t : Tree), compile "/**/**" = .ok s ∧
    t = .map [("a", .array [.null])] ∧ t.WellFormed ∧ (s.all t).length = 6 ∧
    ∃ ways : List (List (List Segment)), ways.Nodup ∧
      (∀ pieces, pieces ∈ ways ↔
        Stage.Splits s.stages pieces ∧ ∃ u, t.at? pieces.flatten = some u) ∧
      ((s.all t).map some).Perm (ways.map fun pieces => t.at? pieces.flatten) ∧
      (ways.map List.flatten).count [⟨"a"⟩, ⟨"0"⟩] = 3 := by
  let s : Selector := ⟨"/**/**", [.descent, .descent, .terminal]⟩
  let t : Tree := .map [("a", .array [.null])]
  have ht : t.WellFormed := by decide
  obtain ⟨ways, hnodup, hmem, hperm⟩ := all_perm_splits s ht
  have hways : ways.Perm (Stage.splits s.stages t) := by
    refine (List.perm_ext_iff_of_nodup hnodup (Stage.nodup_splits ht)).mpr fun pieces => ?_
    exact (hmem pieces).trans (Stage.mem_splits_iff ht).symm
  refine ⟨s, t, rfl, rfl, ht, by decide, ways, hnodup, hmem, hperm, ?_⟩
  rw [(hways.map List.flatten).count_eq]
  decide

end Selector

end DocumentPath
