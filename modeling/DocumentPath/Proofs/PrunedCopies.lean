import Mathlib
import DocumentPath.Proofs.Pruning
import DocumentPath.Proofs.Targets

/-!
# Copying into the empty map

A copy through a selector into the empty map prunes the source: it keeps the matches that the filter
accepts, with all that is below them and the way to them, and nothing else (`Selector.copy_similar_prune`).
The selector may have nothing but plain keys after a descent, and no key of the source may name an index.

The targets come in the order of `Tree.Precedes`, so that the destination stays a partly copied tree from
target to target; only the root, which comes last, is merged and not copied over.
-/

namespace DocumentPath

namespace Pointer

/-- Merging the whole source into what has been copied of it gives the source, up to the order of keys. -/
lemma similar_mergeRoot {pl : Placement} {S : Set (List Segment)} {source t : Tree}
    (h : Tree.PartialCopy pl [] S source t) (hroot : [] ∉ S) (hmap : source.kind = .map)
    (hwf : source.WellFormed) :
    (source.mergeRoot t).error = none ∧ Tree.Similar (source.mergeRoot t).tree source := by
  cases h with
  | whole hmem => exact absurd hmem hroot
  | array => exact absurd hmap (by simp [Tree.kind])
  | @fields _ _ _ ds _ _ hdistinct _ hchild _ _ =>
    cases source with
    | map fs =>
      have hfs : Entries.Distinct fs := hwf.sound
      rw [Tree.mergeRoot_map]
      refine ⟨rfl, .map (Entries.distinct_insertAll hdistinct fs) hfs (fun k => ?_) ?_⟩
      · rw [Entries.get?_insertAll hfs, Option.isSome_or, Bool.or_eq_true, or_iff_left_iff_imp]
        exact hchild ⟨k⟩
      · intro k x x' hx hx'
        rw [Entries.get?_insertAll hfs, hx', Option.some_or] at hx
        rw [Option.some.inj hx]
        exact .refl _
    | array | null | bool | number | text => exact absurd hmap (by simp [Tree.kind])

/-- A run of copies of offered locations goes on from a partly copied destination to the pruned source. -/
theorem copyEach_similar_prune {source : Tree} {filter : Option Filter} (hmap : source.kind = .map)
    (hwf : source.WellFormed) (hk : source.PlainKeys) {ts : List (List Segment)}
    {pl : Placement} {t : Tree} {S : Set (List Segment)} {keep : List Segment → Bool}
    (h : Tree.PartialCopy pl [] S source t) (hroot : [] ∉ S) (hrec : pl.Recorded [] S)
    (hts : ts.Pairwise (Tree.Precedes source)) (hprec : ∀ h ∈ S, ∀ q ∈ ts, source.Precedes h q)
    (hoffers : ∀ q ∈ ts, source.offers filter q = true)
    (hkeep : ∀ q, keep q = true ↔ ∃ h, (h ∈ S ∨ h ∈ ts) ∧ (h <+: q ∨ q <+: h)) :
    (copyEach source filter (ts.map Pointer.mk) pl t).1.error = none ∧
      Tree.Similar (copyEach source filter (ts.map Pointer.mk) pl t).1.tree (source.prune keep) := by
  induction ts generalizing pl t S with
  | nil =>
    refine ⟨rfl, h.similar_prune hwf (fun _ => hmap) fun q => ?_⟩
    rw [hkeep]
    simp
  | cons p rest ih =>
    obtain ⟨hpre, hrest⟩ := List.pairwise_cons.mp hts
    have hoff : source.offers filter p = true := hoffers p List.mem_cons_self
    rw [List.map_cons]
    by_cases hp : p = []
    · -- nothing comes after the root, with which everything is kept
      subst hp
      obtain ⟨hok, hsim⟩ := similar_mergeRoot h hroot hmap hwf
      rw [Tree.eq_nil_of_precedes_root hpre, List.map_nil, copyEach_singleton,
        copyPlaced_root hoff pl t, Tree.prune_eq_self fun q => (hkeep q).mpr
          ⟨[], .inr List.mem_cons_self, .inl List.nil_prefix⟩]
      exact ⟨by rw [Outcome.mapError, hok]; rfl, hsim⟩
    · obtain ⟨v, hv, -⟩ := Tree.offers_eq_true_iff.mp hoff
      obtain ⟨hok, h'⟩ := Tree.PartialCopy.copyOver (fun _ => h) hwf hk hrec hv
        fun x hx => hprec x hx p List.mem_cons_self
      rw [copyEach_cons_of_copyOver hv hoff hp hok]
      refine ih h' ?_ (Tree.recorded_copyOver hrec) hrest ?_
        (fun q hq => hoffers q (List.mem_cons_of_mem _ hq)) fun q => ?_
      · rw [Set.mem_insert_iff, not_or]
        exact ⟨Ne.symm hp, hroot⟩
      · intro x hx q hq
        rcases Set.mem_insert_iff.mp hx with rfl | hx
        · exact hpre q hq
        · exact hprec x hx q (List.mem_cons_of_mem _ hq)
      · rw [hkeep]
        refine exists_congr fun x => and_congr_left fun _ => ?_
        rw [Set.mem_insert_iff, List.mem_cons, or_assoc, or_left_comm]

/-- A run of copies into the empty map succeeds and leaves the source pruned to the offered locations. -/
theorem copyEach_empty_similar_prune {source : Tree} {filter : Option Filter}
    (hmap : source.kind = .map) (hwf : source.WellFormed) (hk : source.PlainKeys)
    {ts : List (List Segment)} (hts : ts.Pairwise (Tree.Precedes source)) {keep : List Segment → Bool}
    (hkeep : ∀ q, keep q = true ↔
      ∃ h, (h ∈ ts ∧ source.offers filter h = true) ∧ (h <+: q ∨ q <+: h)) :
    (copyEach source filter (ts.map Pointer.mk) .empty (.map [])).1.error = none ∧
      Tree.Similar (copyEach source filter (ts.map Pointer.mk) .empty (.map [])).1.tree
        (source.prune keep) := by
  have hempty : Tree.PartialCopy .empty [] ∅ source (.map []) :=
    .fields (by simp) (.inl rfl) List.nodup_nil (by simp) (by simp) (by simp) (by simp)
  have hrecorded : Placement.empty.Recorded [] ∅ := fun e k _ hek => absurd hek (by simp)
  rw [← copyEach_filter_offers]
  refine copyEach_similar_prune hmap hwf hk hempty (by simp) hrecorded (hts.filter _) (by simp)
    (fun q hq => (List.mem_filter.mp hq).2) fun q => ?_
  rw [hkeep]
  simp

end Pointer

namespace Selector

/-- The matches of a selector in a source that a filter accepts. -/
def accepted (s : Selector) (source : Tree) (filter : Option Filter) : List (List Segment) :=
  ((Stage.splits s.stages source).map List.flatten).filter (source.offers filter)

/-- With or without the shortcut the same locations are kept. -/
lemma keeps_accepted_iff {s : Selector} {source : Tree} (hwf : source.WellFormed) (fast : Bool)
    {filter : Option Filter} {q : List Segment} : Tree.keeps (s.accepted source filter) q = true ↔
      ∃ h, (h ∈ Stage.targets (fast && filter.isNone) s.stages source
        ∧ source.offers filter h = true) ∧ (h <+: q ∨ q <+: h) := by
  rw [Tree.keeps_eq_true_iff, accepted, ← Stage.targets_eq_map_flatten hwf]
  simp only [List.mem_filter]
  cases hdirect : fast && filter.isNone with
  | false => rfl
  | true =>
    have hnone : filter = none := by
      rw [Bool.and_eq_true] at hdirect
      exact Option.isNone_iff_eq_none.mp hdirect.2
    have hoffers : ∀ {x u}, source.at? x = some u → source.offers filter x = true := by
      intro x u hu
      rw [Tree.offers, hu, hnone]
      rfl
    constructor
    · rintro ⟨h, ⟨hmem, -⟩, hq⟩
      obtain ⟨h', hmem', hpre⟩ := Stage.exists_direct_target_above hwf hmem
      obtain ⟨u, hu⟩ := Stage.exists_at_of_mem_targets hwf hmem'
      refine ⟨h', ⟨hmem', hoffers hu⟩, ?_⟩
      rcases hq with hq | hq
      · exact .inl (hpre.trans hq)
      · exact (List.prefix_or_prefix_of_prefix hpre hq)
    · rintro ⟨h, ⟨hmem, hoff⟩, hq⟩
      exact ⟨h, ⟨Stage.mem_targets_of_direct hwf hmem, hoff⟩, hq⟩

/-- A copy into the empty map succeeds and leaves the source pruned to the accepted matches, up to the
order of keys: a node is kept if it lies at or below an accepted match, or above one. -/
theorem copy_similar_prune (s : Selector) (hplain : Stage.PlainAfterDescent s.stages) (fast : Bool)
    {source : Tree} (hmap : source.kind = .map) (hwf : source.WellFormed) (hk : source.PlainKeys)
    (filter : Option Filter) :
    (s.copy fast source filter (.map [])).error = none ∧
      Tree.Similar (s.copy fast source filter (.map [])).tree
        (source.prune (Tree.keeps (s.accepted source filter))) := by
  rw [copy_eq_copyEach]
  exact Pointer.copyEach_empty_similar_prune hmap hwf hk (Stage.pairwise_targets _ hplain hwf)
    fun q => keeps_accepted_iff hwf fast

/-- The path `/l/*/**/k` takes the second element out of `{"l": [null, {"k": true, "m": null}]}`, and its
field `k` only. -/
theorem copy_similar_prune_second_element : ∃ (s : Selector) (source : Tree),
    s.stages = [.literal ⟨[⟨"l"⟩]⟩, .wildcard, .descent, .literal ⟨[⟨"k"⟩]⟩, .terminal]
      ∧ source = .map [("l", .array [.null, .map [("k", .bool true), ("m", .null)]])]
      ∧ Stage.PlainAfterDescent s.stages ∧ source.kind = .map ∧ source.WellFormed
      ∧ source.PlainKeys ∧ (s.copy true source none (.map [])).error = none
      ∧ Tree.Similar (s.copy true source none (.map [])).tree
          (.map [("l", .array [.map [("k", .bool true)]])]) := by
  have hplain : Stage.PlainAfterDescent
      [.literal ⟨[⟨"l"⟩]⟩, .wildcard, .descent, .literal ⟨[⟨"k"⟩]⟩, .terminal] := by decide
  have hwf : (Tree.map [("l", .array [.null, .map [("k", .bool true), ("m", .null)]])]).WellFormed := by
    decide
  have hk : (Tree.map [("l", .array [.null, .map [("k", .bool true), ("m", .null)]])]).PlainKeys := by
    decide
  have h := copy_similar_prune ⟨"/l/*/**/k", _⟩ hplain true rfl hwf hk none
  refine ⟨_, _, rfl, rfl, hplain, rfl, hwf, hk, h.1, ?_⟩
  have hprune : (Tree.map [("l", .array [.null, .map [("k", .bool true), ("m", .null)]])]).prune
      (Tree.keeps ((⟨"/l/*/**/k", [.literal ⟨[⟨"l"⟩]⟩, .wildcard, .descent, .literal ⟨[⟨"k"⟩]⟩,
        .terminal]⟩ : Selector).accepted
        (.map [("l", .array [.null, .map [("k", .bool true), ("m", .null)]])]) none))
      = .map [("l", .array [.map [("k", .bool true)]])] := by
    decide
  exact hprune ▸ h.2

end Selector

end DocumentPath
