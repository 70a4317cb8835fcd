import Mathlib
import DocumentPath.Proofs.LevelCopies
import DocumentPath.Proofs.PartialCopies

/-!
# Which copies keep the elements of arrays apart

`Selector.KeepsElementsApart` says of one copy through a selector into the empty map that two elements of
one array of the source never go to the same element of the destination, that everything copied from one
element goes to one element, and that this is the element on record.

It holds for every source if no stage is a descent (`keepsElementsApart_of_direct`), and for sources in
which no key names an index also with one descent, if nothing but plain keys follows it
(`keepsElementsApart_of_plain`).
-/

namespace DocumentPath

/-- Without a descent all targets are at one depth. -/
theorem Stage.exists_length_targets {stages : List Stage} (h : .descent ∉ stages) :
    ∃ n, ∀ (direct : Bool) (t : Tree), ∀ q ∈ targets direct stages t, q.length = n := by
  induction stages with
  | nil => exact ⟨0, fun _ _ q hq => absurd hq List.not_mem_nil⟩
  | cons stage rest ih =>
    rw [List.mem_cons, not_or] at h
    obtain ⟨n, hn⟩ := ih h.2
    cases stage with
    | terminal =>
      refine ⟨0, fun direct t q hq => ?_⟩
      rw [List.mem_singleton.mp hq]
      rfl
    | literal p =>
      refine ⟨p.segments.length + n, fun direct t q hq => ?_⟩
      cases hc : p.at? t with
      | none =>
        rw [targets_literal_eq_none hc] at hq
        exact absurd hq List.not_mem_nil
      | some c =>
        rw [targets_literal_eq_some hc] at hq
        obtain ⟨q', hq', rfl⟩ := List.mem_map.mp hq
        rw [List.length_append, hn direct c q' hq']
    | wildcard =>
      refine ⟨n + 1, fun direct t q hq => ?_⟩
      rw [targets_wildcard] at hq
      obtain ⟨m, -, hm⟩ := List.mem_flatMap.mp hq
      obtain ⟨q', hq', rfl⟩ := List.mem_map.mp hm
      rw [List.length_cons, hn direct m.2 q' hq']
    | descent => exact absurd rfl h.1

/-- Without a descent nothing comes after one. -/
lemma Stage.plainAfterDescent_of_direct {stages : List Stage} (h : .descent ∉ stages) :
    PlainAfterDescent stages := by
  rw [← List.append_nil stages, plainAfterDescent_append h]
  trivial

namespace Selector

/-! ### Keeping the elements apart -/

/-- The locations that a copy into the empty map copies, in the order of copying, each with the location
of the destination to which it goes. -/
def landings (s : Selector) (fast : Bool) (source : Tree) (filter : Option Filter) :
    List (List Segment × List Segment) :=
  Pointer.landings source filter
    ((Stage.targets (fast && filter.isNone) s.stages source).map Pointer.mk) .empty (.map [])

/-- What is on record at the end of a copy into the empty map. -/
def placement (s : Selector) (fast : Bool) (source : Tree) (filter : Option Filter) : Placement :=
  (Pointer.copyEach source filter
    ((Stage.targets (fast && filter.isNone) s.stages source).map Pointer.mk) .empty (.map [])).2

/-- A copy into the empty map keeps the elements of arrays of the source apart. -/
structure KeepsElementsApart (s : Selector) (fast : Bool) (source : Tree) (filter : Option Filter) :
    Prop where
  /-- Every location goes to where the elements on its way are on record. -/
  recorded : ∀ x ∈ s.landings fast source filter, x.2 = (s.placement fast source filter).route [] x.1
  /-- Whatever is copied from elements of one array goes to the same element exactly if it comes from the
  same element. -/
  apart : ∀ x ∈ s.landings fast source filter, ∀ y ∈ s.landings fast source filter,
    ∀ w e e' items, source.at? w = some (.array items) → w ++ [e] <+: x.1 → w ++ [e'] <+: y.1 →
      (x.2.take (w.length + 1) = y.2.take (w.length + 1) ↔ e = e')

/-- Landings that are apart keep the elements of arrays apart. -/
lemma KeepsElementsApart.of_apart {s : Selector} {fast : Bool} {source : Tree}
    {filter : Option Filter}
    (h : Pointer.Apart source (s.landings fast source filter) (s.placement fast source filter)) :
    s.KeepsElementsApart fast source filter := by
  refine ⟨h.route, fun x hx y hy w e e' items hw he he' => ?_⟩
  rw [h.route x hx, h.route y hy, Placement.take_route _ he, Placement.take_route _ he',
    List.append_cancel_left_eq, List.singleton_inj]
  constructor
  · intro heq
    by_contra hne
    exact h.seats x.1 ⟨x.2, hx⟩ y.1 ⟨y.2, hy⟩ w e e' items hw he he' hne heq
  · exact fun heq => heq ▸ rfl

/-- A copy without a descent keeps the elements of arrays apart. -/
theorem keepsElementsApart_of_direct {s : Selector} (h : .descent ∉ s.stages) (fast : Bool)
    {source : Tree} (hwf : source.WellFormed) (filter : Option Filter) :
    s.KeepsElementsApart fast source filter := by
  obtain ⟨n, hn⟩ := Stage.exists_length_targets h
  have hts := Stage.pairwise_targets (fast && filter.isNone) (Stage.plainAfterDescent_of_direct h) hwf
  refine .of_apart (Pointer.apart_landings (fun S pl t => Tree.LevelCopy source n S pl t) ?_
    (List.Subset.refl _) hts ?_ (by simp) (.nil source .empty))
  · intro p hp S pl t v hinv hseats _ hv hprec
    have hlen := hn _ _ p hp
    exact ⟨hinv.keepsApart hseats hlen hv hprec, hinv.insert hlen hv⟩
  · refine ⟨?_, ?_, by simp, by simp, by simp, by simp⟩
    · cases n with
      | zero => trivial
      | succ n => exact ⟨rfl, by simp [Tree.children]⟩
    · intro e k _ hek
      exact absurd hek (by simp)

/-- A copy with nothing but plain keys after a descent keeps the elements of arrays apart, if no key of
the source names an index. -/
theorem keepsElementsApart_of_plain {s : Selector} (h : Stage.PlainAfterDescent s.stages)
    (fast : Bool) {source : Tree} (hwf : source.WellFormed) (hk : source.PlainKeys)
    (filter : Option Filter) : s.KeepsElementsApart fast source filter := by
  have hts := Stage.pairwise_targets (fast && filter.isNone) h hwf
  refine .of_apart (Pointer.apart_landings
    (fun S pl t => Tree.PartialCopy pl [] S source t ∧ pl.Recorded [] S) ?_
    (List.Subset.refl _) hts ⟨?_, ?_⟩ (by simp) (.nil source .empty))
  · intro p _ S pl t v ⟨hcopy, hrec⟩ _ _ hv hprec
    exact ⟨hcopy.keepsApart hwf hk hrec hv hprec,
      (Tree.PartialCopy.copyOver (fun _ => hcopy) hwf hk hrec hv hprec).2,
      Tree.recorded_copyOver hrec⟩
  · exact .fields (by simp) (.inl rfl) List.nodup_nil (by simp) (by simp) (by simp) (by simp)
  · intro e k _ hek
    exact absurd hek (by simp)

end Selector

end DocumentPath
