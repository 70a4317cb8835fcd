import Mathlib
import DocumentPath.Proofs.Conservation
import DocumentPath.Proofs.Exclusions
import DocumentPath.Proofs.SharedElements
import DocumentPath.Proofs.ThinnedTrees

/-!
# Removing by wildcards

A path without keys, of `*` and `**` only, matches by depth: it matches nothing above the depth that is the
number of its `*`, and everything at that depth (`Stage.selects_of_length_eq_count`).  Removing through such
a path therefore truncates the tree, and since a last `**` takes the children of the nodes that it visits, the
tree is truncated at the number of `*` before the last segment, whichever the last segment is
(`Selector.exists_returns_of_free`).

So if the last segment is `*`, no match is left.  If it is `**`, the nodes at the depth of the path are
matches and stay, for only their children are taken: `Selector.remove_by_wildcards` says which paths leave
nothing but the root on which trees.
-/

namespace DocumentPath

open Selector (stagesOf)

namespace Tree

/-! ### Levels and truncation -/

/-- The nodes at a depth, in order. -/
def level : ℕ → Tree → List Tree
  | 0, t => [t]
  | n + 1, t => t.children.flatMap (level n)

/-- The tree without the nodes deeper than `n`. -/
def truncate (n : ℕ) (t : Tree) : Tree := t.prune fun q => decide (q.length ≤ n)

/-- A tree has nothing on a level exactly if it is lower. -/
lemma level_eq_nil_iff {n : ℕ} {t : Tree} : t.level n = [] ↔ t.height < n := by
  induction n generalizing t with
  | zero => simp [level]
  | succ n ih =>
    rw [level, List.flatMap_eq_nil_iff, Nat.lt_succ_iff, height_le_iff]
    exact forall₂_congr fun c _ => ih

lemma truncate_zero (t : Tree) : t.truncate 0 = t.bare := by
  cases t with
  | array items => simp [truncate, prune, pruneItems_eq, bare]
  | map fields => simp [truncate, prune, pruneFields_eq, bare]
  | null | bool | number | text => rfl

lemma truncate_succ (n : ℕ) (t : Tree) : t.truncate (n + 1) = t.mapChildren (truncate n) :=
  prune_eq_mapChildren (by simp) (fun s q => by simp) t

/-- A bare node has no children. -/
lemma children_bare (t : Tree) : t.bare.children = [] := by cases t <;> rfl

/-- A tree cut off at a level is no higher. -/
lemma height_truncate_le (n : ℕ) (t : Tree) : (t.truncate n).height ≤ n := by
  induction n generalizing t with
  | zero =>
    rw [truncate_zero, height_le_iff, children_bare]
    exact nofun
  | succ n ih =>
    rw [truncate_succ, height_le_iff, children_mapChildren]
    exact List.forall_mem_map.mpr fun c _ => Nat.lt_succ_of_le (ih c)

/-- At the depth at which a tree is truncated its nodes lose their children. -/
lemma level_truncate (n : ℕ) (t : Tree) : (t.truncate n).level n = (t.level n).map bare := by
  induction n generalizing t with
  | zero => rw [truncate_zero, level, level, List.map_singleton]
  | succ n ih =>
    rw [truncate_succ, level, level, children_mapChildren, List.flatMap_map, List.map_flatMap]
    exact List.flatMap_congr fun c _ => ih c

/-- A tree that is truncated below its root has children if it had any. -/
lemma truncate_ne_bare {n : ℕ} (hn : n ≠ 0) {t : Tree} (ht : n ≤ t.height) (u : Tree) :
    t.truncate n ≠ u.bare := by
  intro heq
  obtain ⟨m, rfl⟩ := Nat.exists_eq_succ_of_ne_zero hn
  have hchildren : t.children.map (truncate m) = [] := by
    rw [← children_mapChildren, ← truncate_succ, heq, children_bare]
  have hlow : t.height ≤ 0 := by
    rw [height_le_iff, List.map_eq_nil_iff.mp hchildren]
    exact nofun
  omega

/-- The nodes below a node are lower. -/
lemma height_lt_of_mem_flatMap_nodes {t c : Tree} (h : c ∈ t.children.flatMap nodes) :
    c.height < t.height := by
  induction t using byChildren with
  | step t ih =>
    obtain ⟨d, hd, hc⟩ := List.mem_flatMap.mp h
    have hlt : d.height < t.height := height_le_iff.mp le_rfl d hd
    rw [nodes_eq] at hc
    rcases List.mem_cons.mp hc with rfl | hc
    · exact hlt
    · exact (ih d hd hc).trans hlt

end Tree

namespace Stage

/-! ### Paths without keys -/

variable {path : List Step}

/-- The least depth at which a path without keys matches. -/
lemma count_wildcard_le_of_selects (hfree : ∀ k, .key k ∉ path) {q : List Segment}
    (hq : Selects (stagesOf path) q) : path.count .wildcard ≤ q.length := by
  induction path generalizing q with
  | nil => exact Nat.zero_le _
  | cons step path ih =>
    have hbelow := fun {q} => ih (q := q) fun k hk => hfree k (List.mem_cons_of_mem _ hk)
    cases step with
    | key k => exact absurd List.mem_cons_self (hfree k)
    | wildcard =>
      obtain ⟨s, r, hr, rfl⟩ := selects_wildcard_iff.mp hq
      rw [List.count_cons_self, List.length_cons]
      exact Nat.succ_le_succ (hbelow hr)
    | descent =>
      obtain ⟨w, r, hr, rfl⟩ := selects_descent_iff.mp hq
      rw [List.count_cons_of_ne (by simp), List.length_append]
      exact (hbelow hr).trans (Nat.le_add_left _ _)

/-- At that depth a path without keys matches everything. -/
lemma selects_of_length_eq_count (hfree : ∀ k, .key k ∉ path) {q : List Segment}
    (hq : q.length = path.count .wildcard) : Selects (stagesOf path) q := by
  induction path generalizing q with
  | nil => exact selects_terminal_iff.mpr (List.length_eq_zero_iff.mp hq)
  | cons step path ih =>
    have hbelow := fun {q} => ih (q := q) fun k hk => hfree k (List.mem_cons_of_mem _ hk)
    cases step with
    | key k => exact absurd List.mem_cons_self (hfree k)
    | wildcard =>
      rw [List.count_cons_self] at hq
      obtain ⟨s, r, rfl⟩ := List.exists_cons_of_length_eq_add_one hq
      exact selects_wildcard_cons_iff.mpr (hbelow (Nat.succ.inj hq))
    | descent =>
      rw [List.count_cons_of_ne (by simp)] at hq
      exact selects_descent_iff_or.mpr (.inl (hbelow hq))

/-- Clear of the matches of a path without keys is what lies above its depth. -/
lemma clear_eq_of_free (hfree : ∀ k, .key k ∉ path) (q : List Segment) :
    clear (stagesOf path) q = decide (q.length < path.count .wildcard) := by
  rw [Bool.eq_iff_iff, clear_eq_true_iff, decide_eq_true_eq]
  constructor
  · intro h
    by_contra hle
    have htake : (q.take (path.count .wildcard)).length = path.count .wildcard :=
      List.length_take_of_le (not_lt.mp hle)
    exact h _ (List.take_prefix _ q) (selects_of_length_eq_count hfree htake)
  · intro hlt w hw hsel
    exact absurd (hw.length_le.trans_lt hlt)
      (not_lt.mpr (count_wildcard_le_of_selects hfree hsel))

/-- On a tree that is not deeper a path without keys matches the nodes at its depth, each once. -/
theorem matches_of_height_le (hfree : ∀ k, .key k ∉ path) {t : Tree}
    (ht : t.height ≤ path.count .wildcard) :
    Stage.matches (stagesOf path) t = t.level (path.count .wildcard) := by
  induction path generalizing t with
  | nil => rfl
  | cons step path ih =>
    have hbelow := fun {t} => ih (t := t) fun k hk => hfree k (List.mem_cons_of_mem _ hk)
    cases step with
    | key k => exact absurd List.mem_cons_self (hfree k)
    | wildcard =>
      rw [List.count_cons_self] at ht ⊢
      rw [stagesOf, Stage.matches, Tree.level]
      exact List.flatMap_congr fun c hc => hbelow (Nat.lt_succ_iff.mp
        ((Tree.height_le_iff.mp le_rfl c hc).trans_le ht))
    | descent =>
      rw [List.count_cons_of_ne (by simp)] at ht ⊢
      rw [stagesOf, Stage.matches, Tree.nodes_eq, List.flatMap_cons, hbelow ht]
      -- the nodes below the root are too low for a match
      have hnone : (t.children.flatMap Tree.nodes).flatMap (Stage.matches (stagesOf path)) = [] := by
        refine List.flatMap_eq_nil_iff.mpr fun c hc => ?_
        have hlt := (Tree.height_lt_of_mem_flatMap_nodes hc).trans_le ht
        rw [hbelow hlt.le]
        exact Tree.level_eq_nil_iff.mpr hlt
      rw [hnone, List.append_nil]

end Stage

namespace Selector

open Run (Returns)

/-! ### Removing -/

/-- Removing through a path without keys truncates the tree above the matches of its last segment. -/
theorem exists_returns_of_free {front : List Step} {last : Step}
    (hfree : ∀ k, .key k ∉ front ++ [last]) {t : Tree} (ht : t.WellFormed) :
    ∃ removed, Returns (Removal.ofStages (stagesOf (front ++ [last])) t)
      ⟨removed, t.truncate (front.count .wildcard)⟩ := by
  obtain ⟨stages, hterminal, hdescent, hwildcard⟩ := Stage.exists_stagesOf_concat front
  have hremove : Removal.ofStages (stagesOf (front ++ [last])) t
      = Removal.ofStages (stagesOf (front ++ [.wildcard])) t := by
    cases last with
    | key k => exact absurd (List.mem_append_right _ List.mem_cons_self) (hfree k)
    | wildcard => rfl
    | descent => rw [hdescent, hwildcard, Stage.ofStages_concat_descent hterminal]
  have hplain : Stage.EndsPlainly (stagesOf (front ++ [.wildcard])) :=
    hwildcard ▸ Stage.endsPlainly_concat_wildcard hterminal
  have hfree' : ∀ k, .key k ∉ front ++ [.wildcard] := fun k hk =>
    hfree k (List.mem_append_left _ (by simpa using hk))
  have hleft : t.prune (Stage.clear (stagesOf (front ++ [.wildcard])))
      = t.truncate (front.count .wildcard) := by
    rw [Tree.truncate]
    congr 1
    funext q
    rw [Stage.clear_eq_of_free hfree', List.count_append, List.count_singleton_self]
    exact decide_eq_decide.mpr Nat.lt_succ_iff
  have hreturns := Removal.returns_ofStages hplain ht
  rw [Stage.clearing, hleft, ← hremove] at hreturns
  exact ⟨_, hreturns⟩

/-- Removing through the path leaves no match of it but the root. -/
def LeavesNoMatch (s : Selector) (t : Tree) : Prop :=
  ∀ σ : Session, σ.cache.Faithful →
    s.all ((s.remove t).run σ).1.tree = []
      ∨ s.all ((s.remove t).run σ).1.tree = [((s.remove t).run σ).1.tree]

/-- What is left when a path without keys has been removed through, and which matches of the path are among
it. -/
lemma run_remove_of_free {path : String} {s : Selector} (hs : compile path = .ok s) {front : List Step}
    {last : Step} (hsteps : Stage.steps s.stages = front ++ [last])
    (hfree : ∀ k, .key k ∉ front ++ [last]) {t : Tree} (ht : t.WellFormed) {σ : Session}
    (hσ : σ.cache.Faithful) :
    ((s.remove t).run σ).1.tree = t.truncate (front.count .wildcard)
      ∧ s.all (t.truncate (front.count .wildcard))
        = (t.truncate (front.count .wildcard)).level ((front ++ [last]).count .wildcard) := by
  have hstages : s.stages = stagesOf (front ++ [last]) := by
    rcases stages_of_compile hs with hroot | ⟨steps, hstages⟩
    · rw [hroot] at hsteps
      exact absurd hsteps (by simp [Stage.steps, Pointer.root])
    · rw [hstages, Stage.steps_stagesOf] at hsteps
      rw [hstages, hsteps]
  obtain ⟨removed, hremoved⟩ := exists_returns_of_free hfree ht
  constructor
  · rw [remove_eq_ofStages, hstages, (hremoved σ hσ).1]
  · rw [all_eq_matches, hstages]
    refine Stage.matches_of_height_le hfree ((Tree.height_truncate_le _ t).trans ?_)
    rw [List.count_append]
    exact Nat.le_add_right _ _

/-- Which removals through `*` and `**` leave no match.  If the path ends in `*`, nothing that is left matches
it.  If it ends in `**`, the nodes at the depth that is the number of its `*` are left without their children,
and match it again.  So no match but the root is left exactly if the path ends in `*`, or has no `*` at all, or
the tree is not as deep as the path has `*`. -/
theorem remove_by_wildcards {path : String} {s : Selector} (hs : compile path = .ok s)
    (hne : Stage.steps s.stages ≠ []) (hfree : ∀ k, .key k ∉ Stage.steps s.stages) {t : Tree}
    (ht : t.WellFormed) :
    ((Stage.steps s.stages).getLast? = some .wildcard → ∀ σ : Session, σ.cache.Faithful →
        s.all ((s.remove t).run σ).1.tree = [])
      ∧ ((Stage.steps s.stages).getLast? = some .descent → ∀ σ : Session, σ.cache.Faithful →
        s.all ((s.remove t).run σ).1.tree
          = (t.level ((Stage.steps s.stages).count .wildcard)).map Tree.bare)
      ∧ (s.LeavesNoMatch t ↔ (Stage.steps s.stages).getLast? = some .wildcard
        ∨ (Stage.steps s.stages).count .wildcard = 0
        ∨ t.height < (Stage.steps s.stages).count .wildcard) := by
  obtain ⟨front, last, hsteps⟩ := (List.eq_nil_or_concat' (Stage.steps s.stages)).resolve_left hne
  rw [hsteps] at hfree ⊢
  rw [List.getLast?_concat]
  have hrun := fun (σ : Session) hσ => run_remove_of_free hs hsteps hfree ht (σ := σ) hσ
  cases last with
  | key k => exact absurd (List.mem_append_right _ List.mem_cons_self) (hfree k)
  | wildcard =>
    have hnone : ∀ σ : Session, σ.cache.Faithful → s.all ((s.remove t).run σ).1.tree = [] := by
      intro σ hσ
      obtain ⟨htree, hall⟩ := hrun σ hσ
      rw [htree, hall, Tree.level_eq_nil_iff, List.count_append, List.count_singleton_self]
      exact Nat.lt_succ_of_le (Tree.height_truncate_le _ t)
    exact ⟨fun _ => hnone, fun h => absurd h (by simp),
      fun _ => .inl rfl, fun _ σ hσ => .inl (hnone σ hσ)⟩
  | descent =>
    have hcount : (front ++ [Step.descent]).count .wildcard = front.count .wildcard := by
      rw [List.count_append]
      rfl
    rw [hcount] at hrun ⊢
    set m := front.count .wildcard
    have hall : ∀ σ : Session, σ.cache.Faithful →
        s.all ((s.remove t).run σ).1.tree = (t.level m).map Tree.bare := by
      intro σ hσ
      obtain ⟨htree, hall⟩ := hrun σ hσ
      rw [htree, hall, Tree.level_truncate]
    refine ⟨fun h => absurd h (by simp), fun _ => hall, fun h => ?_, fun h σ hσ => ?_⟩
    · by_contra hnot
      obtain ⟨hm, hheight⟩ : m ≠ 0 ∧ m ≤ t.height := by simpa using hnot
      have hcache : (Session.ofCapacity 1).cache.Faithful := Cache.faithful_ofCapacity 1
      rcases h _ hcache with hnil | hroot
      · rw [hall _ hcache, List.map_eq_nil_iff, Tree.level_eq_nil_iff] at hnil
        exact absurd hnil (not_lt.mpr hheight)
      · have hmem : t.truncate m ∈ (t.level m).map Tree.bare := by
          rw [← hall _ hcache, hroot, (hrun _ hcache).1]
          exact List.mem_singleton_self _
        obtain ⟨u, -, hu⟩ := List.mem_map.mp hmem
        exact Tree.truncate_ne_bare hm hheight u hu.symm
    · rcases h.resolve_left (by simp) with hm | hheight
      · rw [hall σ hσ, (hrun σ hσ).1, hm, Tree.truncate_zero]
        exact .inr rfl
      · rw [hall σ hσ, Tree.level_eq_nil_iff.mpr hheight]
        exact .inl rfl

/-- On `{"a": {"b": 1}}` the path `/**/*` leaves no match, and `/*/**` leaves one. -/
theorem remove_by_wildcards_two_paths : ∃ s s' : Selector,
    compile "/**/*" = .ok s ∧ compile "/*/**" = .ok s'
      ∧ s.LeavesNoMatch (.map [("a", .map [("b", .number (.int 1))])])
      ∧ ¬ s'.LeavesNoMatch (.map [("a", .map [("b", .number (.int 1))])]) := by
  have hlast : compile "/**/*" = .ok ⟨"/**/*", [.descent, .wildcard, .terminal]⟩ := rfl
  have hdescent : compile "/*/**" = .ok ⟨"/*/**", [.wildcard, .descent, .terminal]⟩ := rfl
  have ht : (Tree.map [("a", .map [("b", .number (.int 1))])]).WellFormed := by decide
  refine ⟨_, _, hlast, hdescent, ?_, ?_⟩
  · exact (remove_by_wildcards hlast (by decide) (by simp [Stage.steps]) ht).2.2.mpr
      (.inl (by decide))
  · rw [(remove_by_wildcards hdescent (by decide) (by simp [Stage.steps]) ht).2.2]
    decide

/-- Removing through `/*/**` from `{"a": {"b": 1}}` takes `1` only, and `/*/**` then matches the empty map that
is left at `/a`. -/
theorem not_leavesNoMatch_child_descent : ∃ s : Selector, compile "/*/**" = .ok s
    ∧ ((s.remove (.map [("a", .map [("b", .number (.int 1))])])).run (.ofCapacity 1)).1.removed
      = [.number (.int 1)]
    ∧ ((s.remove (.map [("a", .map [("b", .number (.int 1))])])).run (.ofCapacity 1)).1.tree
      = .map [("a", .map [])]
    ∧ s.all (.map [("a", .map [])]) = [.map []]
    ∧ ¬ s.LeavesNoMatch (.map [("a", .map [("b", .number (.int 1))])]) := by
  refine ⟨⟨"/*/**", [.wildcard, .descent, .terminal]⟩, rfl, by decide, by decide, by decide,
    fun h => ?_⟩
  exact absurd (h (.ofCapacity 1) (Cache.faithful_ofCapacity 1)) (by decide)

end Selector

end DocumentPath
