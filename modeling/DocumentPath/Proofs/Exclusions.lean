import Mathlib
import DocumentPath.Proofs.DistinctKeys
import DocumentPath.Proofs.OutermostRemovals
import DocumentPath.Proofs.SteadyRuns

/-!
# Exclusions

What is excluded is not in the result, whatever is included.  The excludes of a record are removed after
every match that has been copied, so those of the last record of the last spec have the last word, if the
record transforms nothing (`Copier.excludes_win`).

One removal through a selector that ends in `*` or in a key that names no index leaves no match, since the
tree that it leaves is pruned of all matches, and later removals drop more but bring nothing back
(`CompiledRecord.returns_removeExcluded`).  This needs documents as they are in memory: with distinct keys,
which every step of a run keeps, and with arrays no longer than there are indexes, which is asked of the
trees that a run assembles.
-/

namespace DocumentPath

open Run (Returns met steady_pure)

/-! ### Short arrays -/

namespace Tree

/-- Every array of the tree is short enough for each of its elements to have an index. -/
def Short (t : Tree) : Prop :=
  ∀ u ∈ t.nodes, u.kind = .array → u.children.length ≤ Segment.indexBound

instance (t : Tree) : Decidable t.Short :=
  inferInstanceAs (Decidable (∀ u ∈ t.nodes, u.kind = .array → u.children.length ≤ Segment.indexBound))

/-- A tree with distinct keys and short arrays is well-formed. -/
lemma Distinct.wellFormed {t : Tree} (ht : t.Distinct) (hshort : t.Short) : t.WellFormed := by
  intro u hu
  cases u with
  | array items => exact hshort _ hu rfl
  | map fields => exact (distinct_map_iff.mp (ht.of_mem_nodes hu)).1
  | null | bool | number | text => exact trivial

end Tree

/-! ### Removing what is excluded -/

namespace Selector

/-- A selector has no match in a well-formed tree if its stages visit nothing. -/
lemma all_eq_nil_iff {s : Selector} {t : Tree} (ht : t.WellFormed) :
    s.all t = [] ↔ Stage.visits s.stages t = [] := by
  have hread : (s.all t).map some = (Stage.visits s.stages t).map t.at? := by
    rw [all_eq_matches, Stage.matches_eq_visits ht]
  rw [← List.map_eq_nil_iff (f := some), hread, List.map_eq_nil_iff]

/-- Uniform pruning brings no match about. -/
lemma all_prune_eq_nil {s : Selector} {keep : List Segment → Bool} (h : Tree.Uniform keep)
    (hroot : keep [] = true) {t : Tree} (ht : t.WellFormed) (hnone : s.all t = []) :
    s.all (t.prune keep) = [] := by
  rw [all_eq_nil_iff ht] at hnone
  rw [all_eq_nil_iff (Tree.wellFormed_prune ht), Stage.visits_prune h hroot s.stages ht, hnone]
  rfl

/-- Where the matches have been cleared away there are none. -/
lemma all_prune_clear {s : Selector} (h : Stage.EndsPlainly s.stages) {t : Tree}
    (ht : t.WellFormed) : s.all (t.prune (Stage.clear s.stages)) = [] := by
  rw [all_eq_nil_iff (Tree.wellFormed_prune ht),
    Stage.visits_prune h.uniform_clear h.clear_nil s.stages ht, List.filter_eq_nil_iff]
  intro q hq hclear
  exact Stage.clear_eq_true_iff.mp hclear q List.prefix_rfl ((Stage.mem_visits_iff ht).mp hq).1

end Selector

namespace CompiledRecord

/-- Removing excludes that end plainly leaves no match of any of them, and brings no match of any other
selector about. -/
theorem returns_removeExcluded {excludes : List Selector}
    (h : ∀ e ∈ excludes, Stage.EndsPlainly e.stages) {t : Tree} (ht : t.WellFormed) :
    ∃ u, Returns (removeExcluded excludes t) u ∧ (∀ e ∈ excludes, e.all u = []) ∧
      ∀ s : Selector, s.all t = [] → s.all u = [] := by
  induction excludes generalizing t with
  | nil => exact ⟨t, Run.returns_pure t, nofun, fun _ hs => hs⟩
  | cons e rest ih =>
    rw [List.forall_mem_cons] at h
    have hremove : Returns (e.remove t) (Stage.clearing e.stages t) := by
      rw [Selector.remove_eq_ofStages]
      exact Removal.returns_ofStages h.1 ht
    have hleft : (t.prune (Stage.clear e.stages)).WellFormed := Tree.wellFormed_prune ht
    obtain ⟨u, hu, hnone, hkeeps⟩ := ih h.2 hleft
    refine ⟨u, hremove.bind hu, ?_, fun s hs => hkeeps s ?_⟩
    · exact List.forall_mem_cons.mpr ⟨hkeeps e (Selector.all_prune_clear h.1 ht), hnone⟩
    · exact Selector.all_prune_eq_nil h.1.uniform_clear h.1.clear_nil ht hs

/-! ### The matches of a record -/

/-- The record is carried out for a match of its source. -/
def accepts (r : CompiledRecord) (v : Tree) : Bool := r.filter.all (·.accepts v)

/-- A match that the filter of the record rejects changes nothing. -/
lemma value_copyMatch_of_not_accepts {r : CompiledRecord} {v : Tree} (h : r.accepts v = false)
    (fast : Bool) (t : Tree) : (r.copyMatch fast v t).value = .ok t := by
  rw [accepts] at h
  rw [copyMatch, h]
  rfl

/-- Matches that the filter of the record rejects change nothing. -/
lemma value_each_of_not_accepts {r : CompiledRecord} {fast : Bool} {found : List Tree}
    (h : ∀ v ∈ found, r.accepts v = false) (t : Tree) :
    (Run.each (r.copyMatch fast) found t).value = .ok t := by
  induction found with
  | nil => rfl
  | cons v rest ih =>
    rw [List.forall_mem_cons] at h
    rw [Run.value_each_cons (r.steady_copyMatch fast), value_copyMatch_of_not_accepts h.1]
    exact ih h.2

/-- After a match has been copied nothing excluded is left, if the record transforms nothing. -/
lemma all_copyMatch_eq_nil {r : CompiledRecord} (hplain : r.transforms = [])
    (hexcludes : ∀ e ∈ r.excludes, Stage.EndsPlainly e.stages) {fast : Bool} {v t : Tree}
    (haccepts : r.accepts v = true) (hwf : (r.copyIncludes fast v t).tree.WellFormed)
    (hok : (r.copyMatch fast v t).value.error = none) :
    ∀ e ∈ r.excludes, e.all (r.copyMatch fast v t).value.tree = [] := by
  obtain ⟨u, hu, hnone, -⟩ := returns_removeExcluded hexcludes hwf
  have htransform : r.transform u = .ok u := by
    rw [transform, hplain]
    rfl
  have hremoved : Run.value (do
      let t ← removeExcluded r.excludes (r.copyIncludes fast v t).tree
      return r.transform t) = .ok u :=
    (hu.bind (f := fun t => return r.transform t) (Run.returns_pure _)).value_eq.trans htransform
  rw [accepts] at haccepts
  unfold copyMatch at hok ⊢
  simp only [haccepts, if_true] at hok ⊢
  cases hincludes : (r.copyIncludes fast v t).error with
  | some e =>
    rw [hincludes] at hok
    exact absurd (hincludes.symm.trans hok) (by simp)
  | none =>
    simp only [hremoved]
    exact hnone

/-- After a run over the matches nothing excluded is left, if one of them is accepted. -/
lemma all_each_eq_nil {r : CompiledRecord} (hplain : r.transforms = [])
    (hexcludes : ∀ e ∈ r.excludes, Stage.EndsPlainly e.stages) {fast : Bool} {found : List Tree}
    {t : Tree} (hmatch : ∃ v ∈ found, r.accepts v = true)
    (hwf : ∀ m ∈ met (r.copyMatch fast) found t, r.accepts m.1 = true →
      (r.copyIncludes fast m.1 m.2).tree.WellFormed)
    (hok : (Run.each (r.copyMatch fast) found t).value.error = none) :
    ∀ e ∈ r.excludes, e.all (Run.each (r.copyMatch fast) found t).value.tree = [] := by
  induction found generalizing t with
  | nil =>
    obtain ⟨v, hv, -⟩ := hmatch
    exact absurd hv List.not_mem_nil
  | cons v rest ih =>
    rw [Run.value_each_cons (r.steady_copyMatch fast)] at hok ⊢
    obtain ⟨hfirst, hrest, htree⟩ := Outcome.andThen_of_error_eq_none hok
    rw [htree]
    by_cases hlater : ∃ v ∈ rest, r.accepts v = true
    · refine ih hlater (fun m hm => hwf m (List.mem_cons_of_mem _ ?_)) hrest
      rw [hfirst]
      exact hm
    · -- the match is the last one that is accepted, so that the others change nothing
      have hothers : ∀ v ∈ rest, r.accepts v = false := fun v hv =>
        Bool.eq_false_iff.mpr fun h => hlater ⟨v, hv, h⟩
      have haccepts : r.accepts v = true := by
        obtain ⟨v', hv', h⟩ := hmatch
        rcases List.mem_cons.mp hv' with rfl | hv'
        · exact h
        · exact absurd ⟨v', hv', h⟩ hlater
      have hincluded := hwf (v, t) List.mem_cons_self haccepts
      rw [value_each_of_not_accepts hothers]
      exact all_copyMatch_eq_nil hplain hexcludes haccepts hincluded hfirst

/-- A record is carried out for its matches one after another. -/
lemma value_copy (fast : Bool) (source : Tree) (r : CompiledRecord) (t : Tree) :
    (copy fast source r t).value = (Run.each (r.copyMatch fast) (r.source.all source) t).value :=
  (Session.steady_report _).value_bind fun _ => Run.steady_each (r.steady_copyMatch fast) _ t

/-- The trees that a record makes of a tree when it copies the includes from its matches. -/
def assembled (fast : Bool) (source : Tree) (r : CompiledRecord) (t : Tree) : List Tree :=
  (met (r.copyMatch fast) (r.source.all source) t).filterMap fun m =>
    if r.accepts m.1 then some (r.copyIncludes fast m.1 m.2).tree else none

/-- The trees that a record assembles have distinct keys. -/
lemma distinct_of_mem_assembled {r : CompiledRecord} (hr : r.KeepsDistinct) {fast : Bool}
    {source t u : Tree} (hsource : source.Distinct) (ht : t.Distinct)
    (hu : u ∈ assembled fast source r t) : u.Distinct := by
  obtain ⟨m, hm, hassembled⟩ := List.mem_filterMap.mp hu
  obtain ⟨-, hassembled⟩ := Option.ite_none_right_eq_some.mp hassembled
  obtain ⟨hvalue, hfound⟩ := Run.invariant_met (P := Tree.Distinct) (fun v hv t ht =>
    distinct_copyMatch hr fast (Selector.distinct_of_mem_all hsource hv) ht _) ht m hm
  exact Option.some.inj hassembled ▸
    r.distinct_copyIncludes (Selector.distinct_of_mem_all hsource hvalue) fast hfound

end CompiledRecord

/-! ### Specs and copiers -/

namespace CompiledCopySpec

/-- The trees that a spec makes at its target when it copies the includes of its records. -/
def assembled (fast : Bool) (source : Tree) (s : CompiledCopySpec) (t : Tree) : List Tree :=
  let opened := s.target.openContainer t
  match opened.error, s.target.at? opened.tree with
  | none, some node => (met (CompiledRecord.copy fast source) s.records node).flatMap fun m =>
    m.1.assembled fast source m.2
  | _, _ => []

/-- The trees that a spec assembles have distinct keys. -/
lemma distinct_of_mem_assembled {s : CompiledCopySpec} (hs : s.KeepsDistinct) {fast : Bool}
    {source t u : Tree} (hsource : source.Distinct) (ht : t.Distinct)
    (hu : u ∈ assembled fast source s t) : u.Distinct := by
  unfold assembled at hu
  simp only at hu
  split at hu
  · next node _ hnode =>
    obtain ⟨m, hm, hu⟩ := List.mem_flatMap.mp hu
    have hnode' : node.Distinct := (s.target.distinct_openContainer ht).at hnode
    obtain ⟨hrecord, hfound⟩ := Run.invariant_met (P := Tree.Distinct) (fun r hr t ht =>
      CompiledRecord.distinct_copy (hs r hr) fast hsource ht _) hnode' m hm
    exact CompiledRecord.distinct_of_mem_assembled (hs m.1 hrecord) hsource hfound hu
  · exact absurd hu List.not_mem_nil

/-- A spec that succeeds opens its target, and what its records make of the container stands there. -/
lemma exists_container_of_copy {fast : Bool} {source : Tree} {s : CompiledCopySpec} {t : Tree}
    (hok : (copy fast source s t).value.error = none) :
    ∃ node, (s.target.openContainer t).error = none ∧
      s.target.at? (s.target.openContainer t).tree = some node ∧
      (Run.each (CompiledRecord.copy fast source) s.records node).value.error = none ∧
      s.target.at? (copy fast source s t).value.tree
        = some (Run.each (CompiledRecord.copy fast source) s.records node).value.tree := by
  unfold copy at hok ⊢
  simp only at hok ⊢
  cases hopened : (s.target.openContainer t).error with
  | some e =>
    rw [hopened] at hok
    exact absurd (hopened.symm.trans hok) (by simp)
  | none =>
    obtain ⟨node, hnode⟩ := Pointer.exists_openContainer hopened
    have hvalue : Run.value (do
        let o ← Run.each (CompiledRecord.copy fast source) s.records node
        return o.within (s.target.openContainer t).tree s.target.segments)
        = (Run.each (CompiledRecord.copy fast source) s.records node).value.within
          (s.target.openContainer t).tree s.target.segments :=
      (Run.steady_each (CompiledRecord.steady_copy fast source) _ _).value_bind fun _ => steady_pure _
    simp only [hopened, hnode, hvalue] at hok ⊢
    have hat := Tree.at?_putAt hnode
      (Run.each (CompiledRecord.copy fast source) s.records node).value.tree []
    rw [List.append_nil] at hat
    exact ⟨node, trivial, rfl, hok, hat⟩

end CompiledCopySpec

namespace Copier

/-- The trees that a copier makes at its targets when it copies the includes of its records. -/
def assembled (c : Copier) (source t : Tree) : List Tree :=
  (met (CompiledCopySpec.copy c.fast source) c.specs t).flatMap fun m =>
    m.1.assembled c.fast source m.2

/-- The trees that a copier assembles from documents are documents. -/
theorem distinct_of_mem_assembled {c : Copier} (hc : c.KeepsDistinct) {source t u : Tree}
    (hsource : source.Distinct) (ht : t.Distinct) (hu : u ∈ c.assembled source t) : u.Distinct := by
  obtain ⟨m, hm, hu⟩ := List.mem_flatMap.mp hu
  obtain ⟨hspec, hfound⟩ := Run.invariant_met (P := Tree.Distinct) (fun s hs t ht =>
    CompiledCopySpec.distinct_copy (hc s hs) c.fast hsource ht _) ht m hm
  exact CompiledCopySpec.distinct_of_mem_assembled (hc m.1 hspec) hsource hfound hu

/-- Reporting a copy does not change what it comes to. -/
lemma value_copy (c : Copier) (source t : Tree) :
    (c.copy source t).value = (c.copyAll source t).value :=
  ((c.steady_copyAll source t).returns.asOperation _ _ _ _).value_eq

/-- What the last record of a copier excludes is not in the result: if a run succeeds, the last record
transforms nothing and accepts a match, and its excludes end in `*` or in keys that name no index, then
none of them has a match below the target, whatever has been included there.  The trees in the run are
documents in memory: the caller's have distinct keys, and no array grows longer than there are indexes. -/
theorem excludes_win {c : Copier} {s : CompiledCopySpec} {r : CompiledRecord} {source t : Tree}
    (hs : c.specs.getLast? = some s) (hr : s.records.getLast? = some r) (hplain : r.transforms = [])
    (hmatch : ∃ v ∈ r.source.all source, r.accepts v = true)
    (hexcludes : ∀ e ∈ r.excludes, Stage.EndsPlainly e.stages)
    (hsource : source.Distinct) (ht : t.Distinct) (hc : c.KeepsDistinct)
    (hshort : ∀ u ∈ c.assembled source t, u.Short) {σ : Session} (hσ : σ.cache.Faithful)
    (hok : ((c.copy source t).run σ).1.error = none) :
    ∃ node, s.target.at? ((c.copy source t).run σ).1.tree = some node ∧
      ∀ e ∈ r.excludes, e.all node = [] := by
  rw [(c.steady_copy source t).run_eq hσ, value_copy] at hok ⊢
  -- the run ends as the last spec does, that one as its last record does, and that one after a match
  obtain ⟨u, hu, hcopy⟩ :=
    Run.exists_met_of_getLast? (CompiledCopySpec.steady_copy c.fast source) hs hok
  rw [copyAll, hcopy]
  rw [copyAll, hcopy] at hok
  obtain ⟨node, hopened, hnode, hrecords, hat⟩ := CompiledCopySpec.exists_container_of_copy hok
  obtain ⟨node', hnode', hrecord⟩ :=
    Run.exists_met_of_getLast? (CompiledRecord.steady_copy c.fast source) hr hrecords
  rw [hrecord, CompiledRecord.value_copy] at hrecords
  refine ⟨_, hat, ?_⟩
  rw [hrecord, CompiledRecord.value_copy]
  refine CompiledRecord.all_each_eq_nil hplain hexcludes hmatch (fun m hm haccepts => ?_) hrecords
  have hmem : (r.copyIncludes c.fast m.1 m.2).tree ∈ c.assembled source t := by
    refine List.mem_flatMap.mpr ⟨(s, u), hu, ?_⟩
    simp only [CompiledCopySpec.assembled, hopened, hnode]
    exact List.mem_flatMap.mpr ⟨(r, node'), hnode', List.mem_filterMap.mpr ⟨m, hm, if_pos haccepts⟩⟩
  exact (distinct_of_mem_assembled hc hsource ht hmem).wellFormed (hshort _ hmem)

/-- The elements of `{"l": [{"a": 1, "k": 2}, {"a": 3}]}` are copied into `/o`, which holds an `a` further
down, and `/**/a` is excluded.  Each element brings an `a` with it, and none is left. -/
theorem excludes_win_descent : ∃ (c : Copier) (s : CompiledCopySpec) (r : CompiledRecord)
    (source t : Tree) (σ : Session),
    c.specs.getLast? = some s ∧ s.records.getLast? = some r ∧ r.transforms = [] ∧
    (∃ v ∈ r.source.all source, r.accepts v = true) ∧
    (∀ e ∈ r.excludes, Stage.EndsPlainly e.stages) ∧ source.Distinct ∧ t.Distinct ∧
    c.KeepsDistinct ∧ (∀ u ∈ c.assembled source t, u.Short) ∧ σ.cache.Faithful ∧
    ((c.copy source t).run σ).1.error = none ∧
    (∃ e ∈ r.excludes, ∀ u ∈ c.assembled source t, e.all u ≠ []) ∧
    ∃ node, s.target.at? ((c.copy source t).run σ).1.tree = some node ∧
      ∀ e ∈ r.excludes, e.all node = [] := by
  let root : Selector := ⟨"", [.literal .root, .terminal]⟩
  let items : Selector := ⟨"/l/*", [.literal ⟨[⟨"l"⟩]⟩, .wildcard, .terminal]⟩
  let named : Selector := ⟨"/**/a", [.descent, .literal ⟨[⟨"a"⟩]⟩, .terminal]⟩
  let r : CompiledRecord := ⟨"/l/*", none, items, [(root, none)], [named], []⟩
  let s : CompiledCopySpec := ⟨⟨[⟨"o"⟩]⟩, [r]⟩
  let c : Copier := ⟨true, [s]⟩
  let source : Tree := .map [("l", .array [.map [("a", .number (.int 1)), ("k", .number (.int 2))],
    .map [("a", .number (.int 3))]])]
  let t : Tree := .map [("o", .map [("x", .map [("a", .null)])])]
  have hmatch : ∃ v ∈ r.source.all source, r.accepts v = true :=
    ⟨.map [("a", .number (.int 3))], by decide, rfl⟩
  have hexcludes : ∀ e ∈ r.excludes, Stage.EndsPlainly e.stages :=
    List.forall_mem_singleton.mpr (.cons (by simp) (.literal (k := ⟨"a"⟩) rfl (by decide)))
  have hsource : source.Distinct := by
    simp [source, Tree.Distinct, Tree.DistinctItems, Tree.DistinctFields, Entries.Distinct]
  have ht : t.Distinct := by
    simp [t, Tree.Distinct, Tree.DistinctFields, Entries.Distinct]
  have hc : c.KeepsDistinct :=
    List.forall_mem_singleton.mpr (List.forall_mem_singleton.mpr fun _ h => absurd h List.not_mem_nil)
  have hshort : ∀ u ∈ c.assembled source t, u.Short := by decide
  have hσ : (Session.ofCapacity 1).cache.Faithful := Cache.faithful_ofCapacity 1
  have hok : ((c.copy source t).run (.ofCapacity 1)).1.error = none := by decide
  exact ⟨c, s, r, source, t, _, rfl, rfl, rfl, hmatch, hexcludes, hsource, ht, hc, hshort, hσ, hok,
    ⟨named, List.mem_singleton_self named, by decide⟩,
    excludes_win rfl rfl rfl hmatch hexcludes hsource ht hc hshort hσ hok⟩

end Copier

end DocumentPath
