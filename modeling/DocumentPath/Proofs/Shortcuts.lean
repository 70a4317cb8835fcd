import Mathlib
import DocumentPath.Proofs.PrunedCopies
import DocumentPath.Proofs.Selections
import DocumentPath.Proofs.SharedElements

/-!
# The shortcut of a copy

A descent that ends the path lists a node after all nodes below it.  The shortcut lists the node alone,
because the nodes below are contained in it.  A copy through a path that does not end in a descent is the
same with and without the shortcut.  If a path ends in its only descent, the two come to the same, up to
the order of keys, from a map with plain keys into the empty map (`Selector.similar_shortcut`), but not
into every destination: the copy of a node below another one may fail at a value which the copy of the
other one would have replaced (`Selector.exists_not_sameByShortcut`).
-/

namespace DocumentPath

open Selector (stagesOf)

namespace Stage

/-! ### Where the shortcut is taken -/

/-- The shortcut changes the targets only at a descent that ends the path. -/
theorem targets_direct_eq {stages : List Stage} (h : ¬ [.descent, .terminal] <:+ stages)
    (t : Tree) : targets true stages t = targets false stages t := by
  induction stages generalizing t with
  | nil => rfl
  | cons stage rest ih =>
    have hrest : ¬ [.descent, .terminal] <:+ rest := fun hsuffix =>
      h (hsuffix.trans (List.suffix_cons stage rest))
    cases stage with
    | terminal => rfl
    | literal p =>
      cases hc : p.at? t with
      | none => rw [targets_literal_eq_none hc, targets_literal_eq_none hc]
      | some c => rw [targets_literal_eq_some hc, targets_literal_eq_some hc, ih hrest]
    | wildcard =>
      rw [targets_wildcard, targets_wildcard]
      exact List.flatMap_congr fun m _ => by rw [ih hrest]
    | descent =>
      have hterminal : rest ≠ [.terminal] := fun heq => h (heq ▸ List.suffix_rfl)
      rw [targets, targets, if_neg (by simpa using hterminal), if_neg (by simp)]
      refine List.flatMap_congr fun w _ => ?_
      cases t.at? w with
      | none => rfl
      | some c => rw [Option.elim_some, Option.elim_some, ih hrest]

/-- A descent that ends the path has nothing behind it. -/
lemma plainAfterDescent_append_descent {stages : List Stage} (h : .descent ∉ stages) :
    PlainAfterDescent (stages ++ [.descent, .terminal]) := by
  rw [plainAfterDescent_append h]
  intro stage hstage
  rw [List.mem_singleton.mp hstage]
  trivial

end Stage

namespace Tree

/-! ### Copying to the end of a nest -/

/-- A copy along a nest goes on at its end. -/
theorem copyOver_nest_append (v : Tree) {q : List Segment} {t : Tree} (h : ready q t = true)
    (k w : List Segment) (pl : Placement) : (copyOver v w (k ++ q) pl (nest k t)).1
      = ⟨nest k (copyOver v (w ++ k) q pl t).1.tree, (copyOver v (w ++ k) q pl t).1.error⟩ := by
  induction k generalizing w with
  | nil => rw [List.append_nil]; rfl
  | cons s k ih =>
    have hready : ready (k ++ q) (nest k t) = true := by
      cases k with
      | nil => exact h
      | cons s' k => rfl
    have hfield : fieldAlong [(s.key, nest k t)] s (k ++ q) = nest k t := by
      simp [fieldAlong, Entries.get?]
    rw [List.cons_append, nest, copyOver_map v w pl (by rw [hfield]; exact hready), hfield, ih,
      List.append_assoc, List.singleton_append]
    simp [nest, Entries.insert]

/-- A node below the field `l`. -/
def deep : Tree := .map [("l", .map [("a", .null)])]

/-- A value at the field `l`, which a copy of `deep` replaces and a copy of the node below `l` does not. -/
def shallow : Tree := .map [("l", .null)]

lemma wellFormed_deep : deep.WellFormed := by decide

lemma wellFormed_shallow : shallow.WellFormed := by decide

end Tree

namespace Pointer

/-- A copy between the ends of two nests fails as it does there. -/
lemma error_copyPlaced_nest {k q : List Segment} {v u t : Tree} (hu : v.at? q = some u)
    (h : Tree.ready q t = true) (hne : k ++ q ≠ []) (pl : Placement) :
    (copyPlaced ⟨k ++ q⟩ (Tree.nest k v) none pl (Tree.nest k t)).1.error
      = (Tree.copyOver u k q pl t).1.error.map (·.at ⟨k ++ q⟩) := by
  have hat : (Tree.nest k v).at? (k ++ q) = some u := (Tree.at?_nest_append k q v).trans hu
  have hoffers : (Tree.nest k v).offers none (k ++ q) = true :=
    Tree.offers_eq_true_iff.mpr ⟨u, hat, rfl⟩
  rw [copyPlaced_of_offers hat hoffers hne, Outcome.mapError, Tree.copyOver_nest_append u h,
    List.nil_append]

/-- The whole of `deep` is copied over `shallow`. -/
lemma copyPlaced_deep_shallow (k : List Segment) : (copyPlaced ⟨k⟩ (Tree.nest k .deep) none .empty
    (Tree.nest k .shallow)).1.error = none := by
  cases k with
  | nil => rfl
  | cons s k =>
    have hcopy := error_copyPlaced_nest (k := s :: k) (q := []) (t := .shallow)
      (Tree.at?_nil .deep) rfl (by simp) .empty
    rwa [List.append_nil] at hcopy

/-- A node below `l` is not copied into `shallow`. -/
lemma copyPlaced_below_shallow (k : List Segment) :
    ∃ e, (copyPlaced ⟨k ++ [⟨"l"⟩, ⟨"a"⟩]⟩ (Tree.nest k .deep) none .empty
      (Tree.nest k .shallow)).1.error = some e := by
  have hbelow : Tree.deep.at? [⟨"l"⟩, ⟨"a"⟩] = some .null := rfl
  rw [error_copyPlaced_nest hbelow rfl (by simp), Tree.shallow, Tree.copyOver_map_not_ready _ _ _ rfl]
  exact ⟨_, rfl⟩

end Pointer

namespace Selector

/-! ### Copies with and without the shortcut -/

/-- The shortcut makes no difference to a copy from `source` into `t`. -/
def SameByShortcut (s : Selector) (source t : Tree) : Prop :=
  s.copy true source none t = s.copy false source none t

/-- A path that does not end in a descent has no use for the shortcut. -/
theorem sameByShortcut_of_not_isSuffix {s : Selector} (h : ¬ [.descent, .terminal] <:+ s.stages)
    (source t : Tree) : s.SameByShortcut source t := by
  rw [SameByShortcut, copy_eq_copyEach, copy_eq_copyEach, Option.isNone_none, Bool.and_true,
    Bool.and_true, Stage.targets_direct_eq h]

/-- With nothing but plain keys after a descent, both copies of a map with plain keys into the empty map
succeed, and come to the same up to the order of keys. -/
theorem similar_shortcut {s : Selector} (hplain : Stage.PlainAfterDescent s.stages) {source : Tree}
    (hmap : source.kind = .map) (hwf : source.WellFormed) (hk : source.PlainKeys) :
    (s.copy true source none (.map [])).error = none
      ∧ (s.copy false source none (.map [])).error = none
      ∧ Tree.Similar (s.copy true source none (.map [])).tree
          (s.copy false source none (.map [])).tree := by
  -- both come to the source pruned to the matches
  have hprune : ∀ fast, (s.copy fast source none (.map [])).error = none ∧ Tree.Similar
      (s.copy fast source none (.map [])).tree
      (source.prune (Tree.keeps (s.accepted source none))) := by
    intro fast
    rw [copy_eq_copyEach]
    exact Pointer.copyEach_empty_similar_prune hmap hwf hk (Stage.pairwise_targets _ hplain hwf)
      fun q => keeps_accepted_iff hwf fast
  exact ⟨(hprune true).1, (hprune false).1, (hprune true).2.trans (hprune false).2.symm⟩

/-- If a path ends in its only descent, there are a source and a destination for which the copy without
the shortcut fails, and the one with it does not. -/
theorem exists_not_sameByShortcut {s : Selector} {pre : List Step} (hpre : .descent ∉ pre)
    (hs : s.stages = stagesOf (pre ++ [.descent])) : ∃ source t : Tree, source.WellFormed ∧
      t.WellFormed ∧ (s.copy true source none t).error = none
        ∧ (s.copy false source none t).error ≠ none := by
  have htargets : ∀ direct, Stage.targets direct s.stages
      (Tree.nest (pre.flatMap Step.taken) .deep)
        = (Stage.targets direct [.descent, .terminal] .deep).map (pre.flatMap Step.taken ++ ·) := by
    intro direct
    rw [hs]
    exact Stage.targets_nest direct hpre [.descent] .deep
  generalize pre.flatMap Step.taken = k at htargets
  refine ⟨Tree.nest k .deep, Tree.nest k .shallow, Tree.wellFormed_nest Tree.wellFormed_deep k,
    Tree.wellFormed_nest Tree.wellFormed_shallow k, ?_, ?_⟩
  · rw [copy_eq_copyEach, Option.isNone_none, Bool.and_self, htargets,
      Stage.targets_descent_terminal, List.map_singleton, List.append_nil, List.map_singleton,
      Pointer.copyEach_cons_of_ok (Pointer.copyPlaced_deep_shallow k)]
    rfl
  · have hfirst : Stage.targets false [.descent, .terminal] .deep
        = [[⟨"l"⟩, ⟨"a"⟩], [⟨"l"⟩], []] := by decide
    obtain ⟨e, he⟩ := Pointer.copyPlaced_below_shallow k
    rw [copy_eq_copyEach, Option.isNone_none, Bool.and_true, htargets, hfirst, List.map_cons,
      List.map_cons, Pointer.copyEach_cons_of_error he, he]
    exact Option.some_ne_none e

/-- When the shortcut makes a difference.  If the path does not end in a descent, never.  If it ends in its
only descent, not for a map with plain keys that is copied into the empty map, but for some source and
destination. -/
theorem sameByShortcut_of_compile {path : String} {s : Selector} (hs : compile path = .ok s) :
    (¬ [.descent, .terminal] <:+ s.stages → ∀ source t : Tree, s.SameByShortcut source t) ∧
      ([.descent, .terminal] <:+ s.stages → s.stages.count .descent ≤ 1 →
        (∀ source : Tree, source.kind = .map → source.WellFormed → source.PlainKeys →
          (s.copy true source none (.map [])).error = none
            ∧ (s.copy false source none (.map [])).error = none
            ∧ Tree.Similar (s.copy true source none (.map [])).tree
                (s.copy false source none (.map [])).tree) ∧
        ∃ source t : Tree, source.WellFormed ∧ t.WellFormed
          ∧ (s.copy true source none t).error = none
          ∧ (s.copy false source none t).error ≠ none) := by
  refine ⟨sameByShortcut_of_not_isSuffix, fun ⟨front, hfront⟩ hcount => ?_⟩
  have hdescent : .descent ∉ front := by
    rw [← List.count_eq_zero]
    rw [← hfront, List.count_append] at hcount
    simp only [List.count_cons_self] at hcount
    omega
  refine ⟨fun source => similar_shortcut ?_, ?_⟩
  · rw [← hfront]
    exact Stage.plainAfterDescent_append_descent hdescent
  · have hsteps : Stage.steps s.stages = Stage.steps front ++ [.descent] := by
      rw [← hfront, Stage.steps_append]
      rfl
    rcases stages_of_compile hs with hroot | ⟨steps, hstages⟩
    · have hnone : Stage.steps [.literal .root, .terminal] = [] := rfl
      rw [hroot, hnone] at hsteps
      exact absurd hsteps.symm (by simp)
    · rw [hstages, Stage.steps_stagesOf] at hsteps
      exact exists_not_sameByShortcut (fun h => hdescent (Stage.mem_of_descent_mem_steps h))
        (hsteps ▸ hstages)

/-- The shortcut makes no difference to `/l/*`, and none to `/l/**` for `{"l": [{"a": 1}]}` and the empty
map, but some to `/l/**` for another source and destination. -/
theorem sameByShortcut_wildcard_descent : ∃ s s' : Selector,
    compile "/l/*" = .ok s ∧ compile "/l/**" = .ok s'
      ∧ (∀ source t : Tree, s.SameByShortcut source t)
      ∧ Tree.Similar (s'.copy true (.map [("l", .array [.map [("a", .number (.int 1))]])]) none
          (.map [])).tree
          (s'.copy false (.map [("l", .array [.map [("a", .number (.int 1))]])]) none (.map [])).tree
      ∧ ∃ source t : Tree, ¬ s'.SameByShortcut source t := by
  have hwildcard : compile "/l/*" = .ok ⟨"/l/*", [.literal ⟨[⟨"l"⟩]⟩, .wildcard, .terminal]⟩ := rfl
  have hdescent : compile "/l/**" = .ok ⟨"/l/**", [.literal ⟨[⟨"l"⟩]⟩, .descent, .terminal]⟩ := rfl
  have hwf : (Tree.map [("l", .array [.map [("a", .number (.int 1))]])]).WellFormed := by decide
  have hk : (Tree.map [("l", .array [.map [("a", .number (.int 1))]])]).PlainKeys := by decide
  obtain ⟨hsimilar, source, t, -, -, hfast, hslow⟩ :=
    (sameByShortcut_of_compile hdescent).2 (by decide) (by decide)
  exact ⟨_, _, hwildcard, hdescent, (sameByShortcut_of_compile hwildcard).1 (by decide),
    (hsimilar _ rfl hwf hk).2.2, source, t, fun h => hslow (h ▸ hfast)⟩

/-- Without the shortcut the path `/**` does not copy `{"m": {"1": {"a": 5}, "0": {"a": {"b": 1}}}}` into
the empty map, and copies the element of `[1]` into the empty array twice. -/
theorem not_sameByShortcut_index_keys : ∃ s : Selector, compile "/**" = .ok s
    ∧ ¬ s.SameByShortcut (.map [("m", .map [("1", .map [("a", .number (.int 5))]),
        ("0", .map [("a", .map [("b", .number (.int 1))])])])]) (.map [])
    ∧ ¬ s.SameByShortcut (.array [.number (.int 1)]) (.array []) := by
  refine ⟨⟨"/**", [.descent, .terminal]⟩, rfl, fun h => ?_, fun h => ?_⟩
  · exact absurd (congrArg Outcome.isOk h) (by decide)
  · exact absurd (congrArg Outcome.tree h) (by decide)

end Selector

end DocumentPath
