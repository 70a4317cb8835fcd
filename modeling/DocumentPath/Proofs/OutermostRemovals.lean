import Mathlib
import DocumentPath.Proofs.RemovalSteps
import DocumentPath.Proofs.Selections

/-!
# Removing the outermost matches

What removing through a selector does if the selector ends in `*` or in a key that names no index: it
detaches the matches that lie below no other match, each once and in the order of reading, and nothing
else changes (`Selector.remove_takes_outermost`).

The removal is followed stage by stage with `Stage.clearing`, which says outright what is detached and
what is left.  The heart is the descent, `Stage.clearing_descent`: after the matches at a node have been
detached, what is still met further down are the matches that none of these covers, and they stand where
they stood, because the elements of an array are detached together or not at all.
-/

namespace DocumentPath

/-- The tree without the nodes at and below the given locations. -/
def Tree.without (t : Tree) (hits : List (List Segment)) : Tree :=
  t.prune fun q => !hits.any fun h => decide (h <+: q)

namespace Stage

/-- The outermost matches of a list of stages, and the tree without them. -/
noncomputable def clearing (stages : List Stage) (t : Tree) : Removal :=
  ⟨(outermost (visits stages t)).filterMap t.at?, t.prune (clear stages)⟩

/-! ### Clearing below a node -/

/-- Below the children of a node the outermost matches are those of each child. -/
lemma removed_clearing_wildcard (rest : List Stage) {t : Tree} (ht : t.Sound) :
    (clearing (.wildcard :: rest) t).removed
      = t.children.flatMap fun c => (clearing rest c).removed := by
  have hat : ∀ m ∈ t.members, ((outermost (visits rest m.2)).map (m.1 :: ·)).filterMap t.at?
      = (outermost (visits rest m.2)).filterMap m.2.at? := by
    intro m hm
    rw [List.filterMap_map]
    refine List.filterMap_congr fun q _ => ?_
    rw [Function.comp_apply, Tree.at?_cons, (Tree.mem_members_iff ht).mp hm, Option.bind_some]
  change (outermost (visits (.wildcard :: rest) t)).filterMap t.at? = _
  rw [visits_wildcard, outermost_flatMap (Tree.nodup_members ht), List.filterMap_flatMap,
    ← Tree.map_snd_members, List.flatMap_map]
  exact List.flatMap_congr hat

/-- Clearing the children of a node is clearing each of them. -/
theorem clearing_wildcard {rest : List Stage} (h : EndsPlainly rest) {t : Tree} (ht : t.Sound) :
    clearing (.wildcard :: rest) t = ⟨t.children.flatMap fun c => (clearing rest c).removed,
      t.mapChildren fun c => (clearing rest c).tree⟩ := by
  have htree : t.prune (clear (.wildcard :: rest)) = t.mapChildren (Tree.prune (clear rest)) :=
    Tree.prune_eq_mapChildren h.clear_nil (clear_wildcard_cons rest) t
  rw [← removed_clearing_wildcard rest ht]
  exact congrArg (Removal.mk _) htree

/-- Below a location the outermost matches are those from there. -/
theorem clearing_literal_eq_some {p : Pointer} {rest : List Stage} (h : EndsPlainly rest)
    {t c : Tree} (ht : t.WellFormed) (hc : p.at? t = some c) :
    clearing (.literal p :: rest) t
      = ⟨(clearing rest c).removed, t.putAt p.segments (clearing rest c).tree⟩ := by
  have hremoved : (outermost (visits (.literal p :: rest) t)).filterMap t.at?
      = (outermost (visits rest c)).filterMap c.at? := by
    rw [visits_literal_eq_some hc, outermost_map, List.filterMap_map]
    refine List.filterMap_congr fun q _ => ?_
    rw [Function.comp_apply, Tree.at?_append, show t.at? p.segments = some c from hc,
      Option.bind_some]
  have hroot : clear (.literal p :: rest) p.segments = true := by
    have happend := clear_literal_append p rest []
    rwa [List.append_nil, h.clear_nil] at happend
  have htree : t.prune (clear (.literal p :: rest))
      = t.putAt p.segments (c.prune (clear rest)) := by
    rw [Tree.prune_eq_putAt ht hc hroot fun q hq => clear_literal_of_not_isPrefix hq rest]
    simp only [clear_literal_append]
  rw [clearing, hremoved, htree]
  rfl

/-- Below a location that does not exist there is nothing to clear. -/
lemma clearing_literal_eq_none {p : Pointer} {rest : List Stage} {t : Tree} (ht : t.WellFormed)
    (hc : p.at? t = none) : clearing (.literal p :: rest) t = .none t := by
  have htree : t.prune (clear (.literal p :: rest)) = t :=
    Tree.prune_eq_self_of_none ht hc fun q hq => clear_literal_of_not_isPrefix hq rest
  rw [clearing, visits_literal_eq_none hc, htree]
  rfl

/-- A visited location is clear of other stages if no location that they visit lies at or above it. -/
lemma clear_eq_true_iff_of_mem_visits {stages rest : List Stage} {t : Tree} (ht : t.WellFormed)
    {w : List Segment} (hw : w ∈ visits stages t) :
    clear rest w = true ↔ ∀ v ∈ visits rest t, ¬ v <+: w := by
  obtain ⟨-, u, hu⟩ := (mem_visits_iff ht).mp hw
  rw [clear_eq_true_iff]
  constructor
  · exact fun hfree v hv hvw => hfree v hvw ((mem_visits_iff ht).mp hv).1
  · exact fun hfree v hvw hsel =>
      hfree v ((mem_visits_iff ht).mpr ⟨hsel, Tree.exists_at?_of_isPrefix hvw hu⟩) hvw

/-- A match further down that is left when a node is cleared stands in the cleared tree where it stood,
with all that is below it. -/
lemma at?_clearing {rest : List Stage} (h : EndsPlainly rest) {t u : Tree} (ht : t.WellFormed)
    {q : List Segment} (hsel : Selects (.descent :: rest) q) (hu : t.at? q = some u)
    (hclear : clear rest q = true) : (clearing rest t).tree.at? q = some u := by
  rw [clearing, Tree.at?_prune h.uniform_clear h.clear_nil ht, if_pos hclear, hu, Option.map_some]
  refine congrArg some (Tree.prune_eq_self (fun r => ?_) u)
  rw [clear_eq_true_iff]
  intro w hw hwsel
  rcases List.prefix_or_prefix_of_prefix hw (List.prefix_append q r) with hwq | hqw
  · exact clear_eq_true_iff.mp hclear w hwq hwsel
  · exact clear_eq_true_iff.mp hclear q List.prefix_rfl (hwsel.of_isPrefix hqw hsel)

/-- A descent first clears the node and then, in what is left, everything below its children. -/
theorem clearing_descent {rest : List Stage} (h : EndsPlainly rest) {t : Tree} (ht : t.WellFormed) :
    clearing (.descent :: rest) t = ⟨(clearing rest t).removed
        ++ (clearing (.wildcard :: .descent :: rest) (clearing rest t).tree).removed,
      (clearing (.wildcard :: .descent :: rest) (clearing rest t).tree).tree⟩ := by
  have hbelow : EndsPlainly (.wildcard :: .descent :: rest) := .cons (by simp) (.cons (by simp) h)
  set V := visits rest t with hV
  set W := visits (.wildcard :: .descent :: rest) t with hW
  have hdescent : ∀ {q}, Selects (.wildcard :: .descent :: rest) q → Selects (.descent :: rest) q :=
    fun hq => selects_descent_iff_or.mpr (.inr hq)
  -- a match further down that lies above a match at the node is one of these
  have hcover : ∀ q ∈ V, ∀ w ∈ W, w <+: q → w ∈ V := by
    intro q hq w hw hwq
    rw [hV, mem_visits_iff ht] at hq
    rw [hW, mem_visits_iff ht] at hw
    rw [hV, mem_visits_iff ht]
    exact ⟨hq.1.of_isPrefix hwq (hdescent hw.1), hw.2⟩
  have hclear : ∀ w ∈ W, clear rest w = true ↔ ∀ v ∈ V, ¬ v <+: w := fun w hw =>
    clear_eq_true_iff_of_mem_visits ht hw
  have hleft : visits (.wildcard :: .descent :: rest) (clearing rest t).tree = W.filter (clear rest) :=
    visits_prune h.uniform_clear h.clear_nil _ ht
  have hat : ∀ q ∈ outermost (W.filter (clear rest)), (clearing rest t).tree.at? q = t.at? q := by
    intro q hq
    obtain ⟨hqW, hqclear⟩ := List.mem_filter.mp (mem_outermost_iff.mp hq).1
    obtain ⟨hsel, u, hu⟩ := (mem_visits_iff ht).mp hqW
    rw [at?_clearing h ht (hdescent hsel) hu hqclear, hu]
  have hremoved : (outermost (visits (.descent :: rest) t)).filterMap t.at?
      = (outermost V).filterMap t.at? ++ (outermost (visits (.wildcard :: .descent :: rest)
          (clearing rest t).tree)).filterMap (clearing rest t).tree.at? := by
    rw [visits_descent rest ht, outermost_append hcover hclear, List.filterMap_append, hleft]
    exact congrArg _ (List.filterMap_congr fun q hq => (hat q hq).symm)
  have htree : t.prune (clear (.descent :: rest))
      = (t.prune (clear rest)).prune (clear (.wildcard :: .descent :: rest)) := by
    rw [Tree.prune_prune h.uniform_clear hbelow.uniform_clear ht]
    exact congrArg (t.prune ·) (funext (clear_descent rest))
  rw [clearing, hremoved, htree]
  rfl

/-- Clearing a key that names no index is removing through its pointer. -/
lemma ofPointer_eq_clearing {p : Pointer} {k : Segment} (hk : p.tail? = some k)
    (hplain : k.isIndex = false) {t : Tree} (ht : t.WellFormed) :
    Removal.ofPointer p t = clearing [.literal p, .terminal] t := by
  have hkeep : ∀ q, clear [.literal p, .terminal] q = true ↔ ¬ p.segments <+: q := by
    intro q
    refine ⟨fun h hpre => ?_, fun h => clear_literal_of_not_isPrefix h _⟩
    exact clear_eq_true_iff.mp h p.segments hpre
      (selects_literal_iff.mpr ⟨[], selects_terminal_iff.mpr rfl, (List.append_nil _).symm⟩)
  rw [Removal.ofPointer, Pointer.remove_eq_prune hk hplain ht hkeep, clearing]
  cases hc : p.at? t with
  | none =>
    rw [visits_literal_eq_none hc]
    rfl
  | some v =>
    have houter : outermost [p.segments] = [p.segments] := by simp [outermost, List.eraseDups_cons]
    have hat : t.at? p.segments = some v := hc
    rw [visits_literal_eq_some hc, visits, List.map_singleton, List.append_nil, houter,
      List.filterMap_cons, hat]
    rfl

end Stage

namespace Removal

open Stage (clearing EndsPlainly)
open Run (Returns)

/-! ### Removing through stages -/

/-- Removing downwards clears what a descent matches. -/
theorem returns_downwards {rest : List Stage} (h : EndsPlainly rest)
    (hrest : ∀ t : Tree, t.WellFormed → Returns (ofStages rest t) (clearing rest t)) (depth : ℕ)
    {t : Tree} (ht : t.WellFormed) (hdepth : t.height ≤ depth) :
    Returns (downwards (ofStages rest) depth t) (clearing (.descent :: rest) t) := by
  have hbelow : EndsPlainly (.descent :: rest) := .cons (by simp) h
  induction depth generalizing t with
  | zero =>
    set u := (clearing rest t).tree with hu
    have hchildren : u.children = [] := by
      have hle : u.height ≤ 0 := (Tree.height_prune_le _ t).trans hdepth
      rw [Tree.height_le_iff] at hle
      exact List.eq_nil_iff_forall_not_mem.mpr fun c hc => Nat.not_lt_zero _ (hle c hc)
    have hsound : u.Sound := Tree.sound_prune ht.sound
    rw [Stage.clearing_descent h ht, ← hu, Stage.clearing_wildcard hbelow hsound,
      Tree.mapChildren_of_childless hchildren, hchildren, List.flatMap_nil, List.append_nil]
    exact hrest t ht
  | succ depth ih =>
    rw [Stage.clearing_descent h ht]
    refine returns_downwards_succ (hrest t ht) ?_
    have hu : (clearing rest t).tree.WellFormed := Tree.wellFormed_prune ht
    rw [Stage.clearing_wildcard hbelow hu.sound]
    refine returns_fromChildren fun c hc => ih (((Tree.wellFormed_iff _).mp hu).2 c hc) ?_
    have hlt : c.height < (clearing rest t).tree.height := Tree.height_le_iff.mp le_rfl c hc
    have hle : (clearing rest t).tree.height ≤ t.height := Tree.height_prune_le _ t
    omega

/-- Removing through stages that end plainly clears what they match. -/
theorem returns_ofStages {stages : List Stage} (h : EndsPlainly stages) {t : Tree}
    (ht : t.WellFormed) : Returns (ofStages stages t) (clearing stages t) := by
  induction h generalizing t with
  | wildcard =>
    have hdrop : ∀ s, Stage.clear [.wildcard, .terminal] [s] = false := fun s =>
      Stage.clear_eq_false_iff.mpr ⟨[s], List.prefix_rfl,
        Stage.selects_wildcard_iff.mpr ⟨s, [], Stage.selects_terminal_iff.mpr rfl, rfl⟩⟩
    have hremoved : (clearing [.wildcard, .terminal] t).removed = t.children := by
      rw [Stage.removed_clearing_wildcard _ ht.sound]
      exact List.flatMap_singleton' t.children
    have hreturns := returns_ofChildren ht.sound.length_children_le hdrop
    rw [← hremoved] at hreturns
    exact hreturns
  | @literal p k hk hplain =>
    rw [← Stage.ofPointer_eq_clearing hk hplain ht]
    exact Run.returns_pure _
  | @cons stage rest hstage h ih =>
    cases stage with
    | terminal => exact absurd rfl hstage
    | literal p =>
      rw [ofStages_literal h.ne_terminal]
      cases hc : p.at? t with
      | none =>
        rw [Stage.clearing_literal_eq_none ht hc]
        exact Run.returns_pure _
      | some c =>
        rw [Stage.clearing_literal_eq_some h ht hc]
        exact (ih (ht.at hc)).bind (Run.returns_pure _)
    | wildcard =>
      rw [ofStages_wildcard h.ne_terminal, Stage.clearing_wildcard h ht.sound]
      exact returns_fromChildren fun c hc => ih (((Tree.wellFormed_iff _).mp ht).2 c hc)
    | descent =>
      rw [ofStages_descent h.ne_terminal]
      exact returns_downwards h (fun _ hu => ih hu) t.height ht le_rfl

end Removal

namespace Selector

open Stage (Selects visits)

/-- Removing through a selector goes along its stages, also when it takes the short way of a selector
without wildcards. -/
lemma remove_eq_ofStages (s : Selector) (t : Tree) : s.remove t = Removal.ofStages s.stages t := by
  unfold remove
  cases hp : s.asPointer? with
  | none => rfl
  | some p =>
    rw [asPointer?_eq_some_iff.mp hp, Removal.ofStages]

/-- Clearing leaves the tree without the outermost matches. -/
lemma prune_clear_eq_without {stages : List Stage} {t : Tree} (ht : t.WellFormed) :
    t.prune (Stage.clear stages) = t.without (outermost (visits stages t)) := by
  refine Tree.prune_congr ht fun q u hu => ?_
  rw [Bool.eq_iff_iff, Stage.clear_eq_true_iff, Bool.not_eq_true', List.any_eq_false]
  simp only [decide_eq_true_eq]
  constructor
  · intro h w hw hwq
    exact h w hwq ((Stage.mem_visits_iff ht).mp (mem_outermost_iff.mp hw).1).1
  · intro h w hwq hsel
    obtain ⟨x, hx, hxw⟩ := exists_outermost
      ((Stage.mem_visits_iff ht).mpr ⟨hsel, Tree.exists_at?_of_isPrefix hwq hu⟩)
    exact h x hx (hxw.trans hwq)

/-- Removing through a selector that ends in `*` or in a key that names no index detaches exactly the
outermost matches, each once and in the order in which reading returns them; what is left is the tree
without them, and has no match any more. -/
theorem remove_takes_outermost (s : Selector) (h : Stage.EndsPlainly s.stages) {t : Tree}
    (ht : t.WellFormed) {σ : Session} (hσ : σ.cache.Faithful) :
    (s.all t).map some = (visits s.stages t).map t.at?
      ∧ (∀ q, q ∈ visits s.stages t ↔ Selects s.stages q ∧ ∃ u, t.at? q = some u)
      ∧ (outermost (visits s.stages t)).Nodup
      ∧ ((s.remove t).run σ).1.removed.map some = (outermost (visits s.stages t)).map t.at?
      ∧ ((s.remove t).run σ).1.tree = t.without (outermost (visits s.stages t))
      ∧ s.all ((s.remove t).run σ).1.tree = []
      ∧ ((s.remove t).run σ).2.cache.Faithful := by
  have hread : ∀ {u : Tree}, u.WellFormed → (s.all u).map some = (visits s.stages u).map u.at? := by
    intro u hu
    rw [all_eq_matches, Stage.matches_eq_visits hu]
  have hmem : ∀ q, q ∈ visits s.stages t ↔ Selects s.stages q ∧ ∃ u, t.at? q = some u :=
    fun q => Stage.mem_visits_iff ht
  obtain ⟨hresult, hcache⟩ := Removal.returns_ofStages h ht σ hσ
  rw [← remove_eq_ofStages] at hresult hcache
  rw [hresult]
  refine ⟨hread ht, hmem, nodup_outermost _, ?_, prune_clear_eq_without ht, ?_, hcache⟩
  · rw [Stage.clearing, List.map_filterMap_some_eq_filter_map_isSome]
    refine List.filter_eq_self.mpr fun o ho => ?_
    obtain ⟨q, hq, rfl⟩ := List.mem_map.mp ho
    exact Option.isSome_iff_exists.mpr ((hmem q).mp (mem_outermost_iff.mp hq).1).2
  · have hleft : (Stage.clearing s.stages t).tree.WellFormed := Tree.wellFormed_prune ht
    have hnone : visits s.stages (Stage.clearing s.stages t).tree = [] := by
      rw [Stage.clearing, Stage.visits_prune h.uniform_clear h.clear_nil _ ht,
        List.filter_eq_nil_iff]
      intro q hq hclear
      exact Stage.clear_eq_true_iff.mp hclear q List.prefix_rfl ((hmem q).mp hq).1
    have hnothing := hread hleft
    rw [hnone, List.map_nil] at hnothing
    exact List.map_eq_nil_iff.mp hnothing

/-- The path `/**/a` takes two matches from `{"a": {"a": null}, "l": [{"a": true}]}`, since the third
lies in the first. -/
theorem remove_takes_outermost_nested : ∃ s : Selector, compile "/**/a" = .ok s
    ∧ Stage.EndsPlainly s.stages
    ∧ ∃ t : Tree, t = .map [("a", .map [("a", .null)]), ("l", .array [.map [("a", .bool true)]])]
      ∧ t.WellFormed ∧ (Session.ofCapacity 1).cache.Faithful
      ∧ (s.all t).map some = (visits s.stages t).map t.at?
      ∧ (∀ q, q ∈ visits s.stages t ↔ Selects s.stages q ∧ ∃ u, t.at? q = some u)
      ∧ outermost (visits s.stages t) = [[⟨"a"⟩], [⟨"l"⟩, ⟨"0"⟩, ⟨"a"⟩]]
      ∧ ((s.remove t).run (.ofCapacity 1)).1.removed.map some
        = (outermost (visits s.stages t)).map t.at?
      ∧ ((s.remove t).run (.ofCapacity 1)).1.tree = t.without (outermost (visits s.stages t))
      ∧ s.all ((s.remove t).run (.ofCapacity 1)).1.tree = [] := by
  have hends : Stage.EndsPlainly [.descent, .literal ⟨[⟨"a"⟩]⟩, .terminal] :=
    .cons (by simp) (.literal (k := ⟨"a"⟩) rfl (by decide))
  have ht : (Tree.map [("a", .map [("a", .null)]),
      ("l", .array [.map [("a", .bool true)]])]).WellFormed := by decide
  have hσ : (Session.ofCapacity 1).cache.Faithful := Cache.faithful_ofCapacity 1
  obtain ⟨hall, hmem, -, hremoved, htree, hnone, -⟩ := remove_takes_outermost
    ⟨"/**/a", [.descent, .literal ⟨[⟨"a"⟩]⟩, .terminal]⟩ hends ht hσ
  exact ⟨_, rfl, hends, _, rfl, ht, hσ, hall, hmem, by decide, hremoved,
    htree, hnone⟩

end Selector

end DocumentPath
