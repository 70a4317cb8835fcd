import Mathlib
import DocumentPath.Proofs.CopySteps
import DocumentPath.Proofs.Targets

/-!
# Walks that copy

A copy through a selector finds the locations and copies them in one walk.  Since the walk never looks at
the destination, it comes to the same as listing the locations first, as `Stage.targets` does, and copying
them one after another (`Stage.copy_eq_copyEach`, `Selector.copy_eq_copyEach`).  Without the shortcut the
copied locations are those whose nodes reading returns, each as often (`Selector.copies_what_it_reads`).
-/

namespace DocumentPath

namespace Pointer

variable {source : Tree} {filter : Option Filter}

/-! ### A run of copies -/

/-- After a copy that succeeds the run goes on. -/
lemma copyEach_cons_of_ok {p : Pointer} {rest : List Pointer} {pl : Placement} {t : Tree}
    (h : (p.copyPlaced source filter pl t).1.error = none) :
    copyEach source filter (p :: rest) pl t = copyEach source filter rest
      (p.copyPlaced source filter pl t).2 (p.copyPlaced source filter pl t).1.tree := by
  rw [copyEach]
  simp only [h]

/-- A copy that fails ends the run. -/
lemma copyEach_cons_of_error {p : Pointer} {rest : List Pointer} {pl : Placement} {t : Tree}
    {e : PathError} (h : (p.copyPlaced source filter pl t).1.error = some e) :
    copyEach source filter (p :: rest) pl t = p.copyPlaced source filter pl t := by
  rw [copyEach]
  simp only [h]

/-- After an offered location that can be copied the run goes on. -/
lemma copyEach_cons_of_copyOver {q : List Segment} {v : Tree} (hv : source.at? q = some v)
    (h : source.offers filter q = true) (hq : q ≠ []) {pl : Placement} {t : Tree}
    (hok : (Tree.copyOver v [] q pl t).1.error = none) (rest : List Pointer) :
    copyEach source filter (⟨q⟩ :: rest) pl t = copyEach source filter rest
      (Tree.copyOver v [] q pl t).2 (Tree.copyOver v [] q pl t).1.tree := by
  have hcopy := copyPlaced_of_offers hv h hq pl t
  have herror : (copyPlaced ⟨q⟩ source filter pl t).1.error = none := by
    rw [hcopy, Outcome.mapError, hok]
    rfl
  rw [copyEach_cons_of_ok herror, hcopy]
  rfl

/-- A location that is not offered is passed over. -/
lemma copyEach_cons_of_not_offers {q : List Segment} (h : source.offers filter q = false)
    (rest : List Pointer) (pl : Placement) (t : Tree) :
    copyEach source filter (⟨q⟩ :: rest) pl t = copyEach source filter rest pl t := by
  have hcopy := copyPlaced_of_not_offers h pl t
  have hok : (copyPlaced ⟨q⟩ source filter pl t).1.error = none := by
    rw [hcopy]
    rfl
  rw [copyEach_cons_of_ok hok, hcopy]
  rfl

/-- A run copies what is offered. -/
lemma copyEach_filter_offers (ts : List (List Segment)) (pl : Placement) (t : Tree) :
    copyEach source filter ((ts.filter (source.offers filter)).map Pointer.mk) pl t
      = copyEach source filter (ts.map Pointer.mk) pl t := by
  induction ts generalizing pl t with
  | nil => rfl
  | cons q rest ih =>
    cases hoff : source.offers filter q with
    | false =>
      rw [List.filter_cons_of_neg (Bool.eq_false_iff.mp hoff), List.map_cons,
        copyEach_cons_of_not_offers hoff, ih]
    | true =>
      rw [List.filter_cons_of_pos hoff, List.map_cons, List.map_cons]
      cases h : (copyPlaced ⟨q⟩ source filter pl t).1.error with
      | some e => rw [copyEach_cons_of_error h, copyEach_cons_of_error h]
      | none => rw [copyEach_cons_of_ok h, copyEach_cons_of_ok h, ih]

/-- A run of one copy. -/
lemma copyEach_singleton (p : Pointer) (pl : Placement) (t : Tree) :
    copyEach source filter [p] pl t = p.copyPlaced source filter pl t := by
  cases h : (p.copyPlaced source filter pl t).1.error with
  | some e => rw [copyEach_cons_of_error h]
  | none => rw [copyEach_cons_of_ok h, copyEach, Outcome.ok, ← h]

/-- After a run that succeeds a further run goes on. -/
lemma copyEach_append_of_ok {ps : List Pointer} (qs : List Pointer) {pl : Placement} {t : Tree}
    (h : (copyEach source filter ps pl t).1.error = none) :
    copyEach source filter (ps ++ qs) pl t = copyEach source filter qs
      (copyEach source filter ps pl t).2 (copyEach source filter ps pl t).1.tree := by
  induction ps generalizing pl t with
  | nil => rfl
  | cons p rest ih =>
    cases hp : (p.copyPlaced source filter pl t).1.error with
    | some e =>
      rw [copyEach_cons_of_error hp, hp] at h
      exact absurd h (by simp)
    | none =>
      rw [copyEach_cons_of_ok hp] at h ⊢
      rw [List.cons_append, copyEach_cons_of_ok hp, ih h]

/-- A run that fails is not gone on with. -/
lemma copyEach_append_of_error {ps : List Pointer} (qs : List Pointer) {pl : Placement} {t : Tree}
    {e : PathError} (h : (copyEach source filter ps pl t).1.error = some e) :
    copyEach source filter (ps ++ qs) pl t = copyEach source filter ps pl t := by
  induction ps generalizing pl t with
  | nil => exact absurd h (by simp [copyEach, Outcome.ok])
  | cons p rest ih =>
    rw [List.cons_append]
    cases hp : (p.copyPlaced source filter pl t).1.error with
    | some e' => rw [copyEach_cons_of_error hp, copyEach_cons_of_error hp]
    | none =>
      rw [copyEach_cons_of_ok hp] at h ⊢
      rw [copyEach_cons_of_ok hp, ih h]

/-- Runs for each of a list of things make up one run. -/
theorem copyEach_flatMap {α : Type} (f : α → List Pointer) (as : List α) (pl : Placement) (t : Tree) :
    copyEach source filter (as.flatMap f) pl t
      = Placement.each (fun a => copyEach source filter (f a)) as pl t := by
  induction as generalizing pl t with
  | nil => rfl
  | cons a rest ih =>
    rw [List.flatMap_cons, Placement.each]
    cases h : (copyEach source filter (f a) pl t).1.error with
    | some e => simp only [copyEach_append_of_error _ h, h]
    | none => simp only [copyEach_append_of_ok _ h, h, ih]

end Pointer

/-! ### The walk -/

/-- A walk below a node copies the targets of the stages there one after another. -/
theorem Stage.copy_eq_copyEach (direct : Bool) (source : Tree) (filter : Option Filter)
    (stages : List Stage) (walked : List Segment) (u : Tree) (pl : Placement) (t : Tree) :
    Stage.copy direct source filter stages walked u pl t = Pointer.copyEach source filter
      ((targets direct stages u).map fun q => ⟨walked ++ q⟩) pl t := by
  induction stages generalizing walked u pl t with
  | nil => rfl
  | cons stage rest ih =>
    -- below a node further down the walk goes on from there
    have hbelow : ∀ (w : List Segment) (c : Tree),
        Stage.copy direct source filter rest (walked ++ w) c = Pointer.copyEach source filter
          (((targets direct rest c).map (w ++ ·)).map fun q => ⟨walked ++ q⟩) := by
      intro w c
      funext pl t
      rw [ih, List.map_map]
      simp only [Function.comp_def, List.append_assoc]
    cases stage with
    | terminal =>
      rw [Stage.copy, targets, List.map_singleton, List.append_nil, Pointer.copyEach_singleton]
    | literal p =>
      rw [Stage.copy, targets]
      cases p.at? u with
      | none => rfl
      | some c => exact congrFun (congrFun (hbelow p.segments c) pl) t
    | wildcard =>
      rw [Stage.copy, targets, List.map_flatMap, Pointer.copyEach_flatMap]
      simp only [hbelow]
      rfl
    | descent =>
      rw [Stage.copy, targets]
      split
      · next hdirect =>
        have hrest : rest = [.terminal] := by
          simpa using (Bool.and_eq_true_iff.mp hdirect).2
        rw [hrest, Stage.copy, List.map_singleton, List.append_nil, Pointer.copyEach_singleton]
      · rw [List.map_flatMap, Pointer.copyEach_flatMap]
        congr 1
        funext path pl t
        cases u.at? path with
        | none => rfl
        | some c => exact congrFun (congrFun (hbelow path c) pl) t

namespace Selector

/-- Copying through a selector copies its targets one after another, also when it takes the short way of
a selector without wildcards. -/
theorem copy_eq_copyEach (s : Selector) (fast : Bool) (source : Tree) (filter : Option Filter)
    (t : Tree) : s.copy fast source filter t = (Pointer.copyEach source filter
      ((Stage.targets (fast && filter.isNone) s.stages source).map Pointer.mk) .empty t).1 := by
  unfold copy
  cases hp : s.asPointer? with
  | none =>
    change (Stage.copy _ source filter s.stages [] source .empty t).1 = _
    rw [Stage.copy_eq_copyEach]
    rfl
  | some p =>
    rw [asPointer?_eq_some_iff.mp hp, Stage.targets]
    change (p.copyPlaced source filter .empty t).1 = _
    cases hv : p.at? source with
    | none =>
      rw [Pointer.copyPlaced, hv]
      rfl
    | some v =>
      rw [Option.elim_some, Stage.targets, List.map_singleton, List.map_singleton,
        List.append_nil, Pointer.copyEach_singleton]

/-- Without the shortcut a copy depends on the filter and the destination only through the copies of
single locations: for each source it copies one and the same list of locations one after another, and the
nodes at these locations are those that reading returns. -/
theorem copies_what_it_reads (s : Selector) {source : Tree} (hs : source.WellFormed) :
    ∃ locations : List (List Segment),
      (locations.map source.at?).Perm ((s.all source).map some) ∧
        ∀ (filter : Option Filter) (t : Tree), s.copy false source filter t
          = (Pointer.copyEach source filter (locations.map Pointer.mk) .empty t).1 := by
  refine ⟨Stage.targets false s.stages source, ?_,
    fun filter t => copy_eq_copyEach s false source filter t⟩
  rw [Stage.targets_eq_map_flatten hs, List.map_map, all_eq_matches]
  exact (Stage.perm_matches_splits hs).symm

/-- Through `/**/*/**` a copy of `{"l": {"1": [null]}}` goes to every location below the root, and to the
deeper ones once for every way in which the descents lead there.  Under a filter for null only the item is
copied, and as the key of the map looks like an index, the copy has an array in its place. -/
theorem copies_what_it_reads_two_descents : ∃ (s : Selector) (source t : Tree) (filter : Filter),
    compile "/**/*/**" = .ok s ∧ source = .map [("l", .map [("1", .array [.null])])] ∧
    t = .map [("l", .array [.array [.null]])] ∧ source.WellFormed ∧
    ∃ locations : List (List Segment),
      locations.Perm [[⟨"l"⟩], [⟨"l"⟩, ⟨"1"⟩], [⟨"l"⟩, ⟨"1"⟩], [⟨"l"⟩, ⟨"1"⟩, ⟨"0"⟩],
        [⟨"l"⟩, ⟨"1"⟩, ⟨"0"⟩], [⟨"l"⟩, ⟨"1"⟩, ⟨"0"⟩]] ∧
      (locations.map source.at?).Perm ((s.all source).map some) ∧
      s.copy false source (some filter) (.map []) = .ok t ∧
      (Pointer.copyEach source (some filter) (locations.map Pointer.mk) .empty (.map [])).1
        = .ok t := by
  let s : Selector := ⟨"/**/*/**", [.descent, .wildcard, .descent, .terminal]⟩
  let source : Tree := .map [("l", .map [("1", .array [.null])])]
  let filter : Filter := .compare none (.text none false)
  have hs : source.WellFormed := by decide
  obtain ⟨locations, hperm, hcopy⟩ := copies_what_it_reads s hs
  have hrun : s.copy false source (some filter) (.map [])
    = .ok (.map [("l", .array [.array [.null]])]) := rfl
  refine ⟨s, source, _, filter, rfl, rfl, rfl, hs, locations, ?_, hperm, hrun,
    (hcopy _ _).symm.trans hrun⟩
  -- no two locations have the same node, so that the nodes tell where they are
  let place (u : Option Tree) : List Segment := (source.locations.find? (source.at? · == u)).getD []
  have hplace : ∀ p ∈ source.locations, place (source.at? p) = p := by decide
  have hlocations : (locations.map source.at?).map place = locations := by
    rw [List.map_map]
    refine (List.map_congr_left fun p hp => ?_).trans (List.map_id locations)
    have hread : source.at? p ∈ (s.all source).map some :=
      hperm.subset (List.mem_map_of_mem hp)
    obtain ⟨u, -, hu⟩ := List.mem_map.mp hread
    exact hplace p ((Tree.mem_locations_iff hs).mpr (Option.isSome_iff_exists.mpr ⟨u, hu.symm⟩))
  rw [← hlocations]
  exact (hperm.map place).trans (by decide)

end Selector

end DocumentPath
