import Mathlib
import DocumentPath.Proofs.FirstOccurrences
import DocumentPath.Proofs.Matches

/-!
# The order of the matches

`Tree.walk` lists the locations of a tree as they are read, a node before the locations below it, and
`Stage.visits` the locations that a list of stages matches in the order in which reading through a
selector returns their nodes (`matches_eq_visits`).  A location that several splits lead to is listed
once for each of them (`perm_visits_splits`).

Of a list of locations, `outermost` keeps those that do not lie below another one, each where it comes
first.  `outermost_append` follows how a descent finds them: first the ones at the node, then the ones
further down that no match at the node covers.
-/

namespace DocumentPath

namespace Tree

/-! ### Walks -/

mutual

/-- The location of every node, a node before the locations below it. -/
def walk : Tree → List (List Segment)
  | .array items => [] :: walkItems 0 items
  | .map fields => [] :: walkFields fields
  | _ => [[]]

/-- The locations in a list of items, the first of them at index `i`. -/
def walkItems (i : ℕ) : List Tree → List (List Segment)
  | [] => []
  | t :: rest => t.walk.map (Segment.ofIndex i :: ·) ++ walkItems (i + 1) rest

/-- The locations in a list of fields. -/
def walkFields : List (String × Tree) → List (List Segment)
  | [] => []
  | (k, t) :: rest => t.walk.map ((⟨k⟩ : Segment) :: ·) ++ walkFields rest

end

/-- A walk through items goes through each under its index. -/
lemma walkItems_eq (i : ℕ) (items : List Tree) : walkItems i items
    = ((items.zipIdx i).map fun (t, j) => (Segment.ofIndex j, t)).flatMap
        fun m => m.2.walk.map (m.1 :: ·) := by
  induction items generalizing i with
  | nil => rfl
  | cons t rest ih => rw [walkItems, ih, List.zipIdx_cons, List.map_cons, List.flatMap_cons]

/-- A walk through fields goes through each under its key. -/
lemma walkFields_eq (fields : List (String × Tree)) : walkFields fields
    = (fields.map fun (k, t) => ((⟨k⟩ : Segment), t)).flatMap
        fun m => m.2.walk.map (m.1 :: ·) := by
  induction fields with
  | nil => rfl
  | cons f rest ih =>
    obtain ⟨k, t⟩ := f
    rw [walkFields, ih, List.map_cons, List.flatMap_cons]

/-- A walk goes to the root and then through the members. -/
theorem walk_eq (t : Tree) : t.walk = [] :: t.members.flatMap fun m => m.2.walk.map (m.1 :: ·) := by
  cases t with
  | array items => rw [walk, walkItems_eq, members]
  | map fields => rw [walk, walkFields_eq, members]
  | null | bool | number | text => simp [walk, members]

/-- A walk goes once to every location. -/
theorem perm_walk_locations (t : Tree) : t.walk.Perm t.locations := by
  induction t using byChildren with
  | step t ih =>
    rw [walk_eq, locations_eq, locationsOfMembers]
    have hbelow : (t.members.flatMap fun m => m.2.walk.map (m.1 :: ·)).Perm
        (t.members.flatMap fun m => m.2.locations.map (m.1 :: ·)) :=
      List.Perm.flatMap_left _ fun m hm => (ih m.2 (mem_children_of_mem_members hm)).map _
    exact (hbelow.cons _).trans (List.perm_append_singleton _ _).symm

/-- A walk comes to the locations at which there is a node. -/
lemma mem_walk_iff {t : Tree} (ht : t.WellFormed) {q : List Segment} :
    q ∈ t.walk ↔ ∃ u, t.at? q = some u := by
  rw [(perm_walk_locations t).mem_iff, mem_locations_iff ht, Option.isSome_iff_exists]

/-- The nodes of a tree stand where a walk goes, in its order. -/
theorem nodes_eq_walk {t : Tree} (ht : t.WellFormed) : t.nodes.map some = t.walk.map t.at? := by
  induction t using byChildren with
  | step t ih =>
    rw [nodes_eq, walk_eq, List.map_cons, List.map_cons, at?_nil, ← map_snd_members,
      List.flatMap_map, List.map_flatMap, List.map_flatMap]
    refine congrArg _ (List.flatMap_congr fun m hm => ?_)
    have hchild : t.child? m.1 = some m.2 := (mem_members_iff ht.sound).mp hm
    rw [ih m.2 (mem_children_of_mem_members hm) (ht.child hchild), List.map_map]
    refine List.map_congr_left fun p _ => ?_
    rw [Function.comp_apply, at?_cons, hchild, Option.bind_some]

end Tree

namespace Stage

/-! ### Visits -/

/-- The locations that a list of stages matches in a tree, in the order of reading. -/
def visits : List Stage → Tree → List (List Segment)
  | [], _ => []
  | .terminal :: _, _ => [[]]
  | .literal p :: rest, t =>
    (p.at? t).elim [] fun c => (visits rest c).map (p.segments ++ ·)
  | .wildcard :: rest, t => t.members.flatMap fun m => (visits rest m.2).map (m.1 :: ·)
  | .descent :: rest, t =>
    t.walk.flatMap fun w => (t.at? w).elim [] fun c => (visits rest c).map (w ++ ·)

/-- A literal visits what comes after its pointer. -/
lemma visits_literal_eq_some {p : Pointer} {rest : List Stage} {t c : Tree} (hc : p.at? t = some c) :
    visits (.literal p :: rest) t = (visits rest c).map (p.segments ++ ·) := by
  rw [visits, hc, Option.elim_some]

/-- A literal whose pointer leads nowhere visits nothing. -/
lemma visits_literal_eq_none {p : Pointer} {rest : List Stage} {t : Tree} (hc : p.at? t = none) :
    visits (.literal p :: rest) t = [] := by
  rw [visits, hc, Option.elim_none]

/-- A wildcard visits what comes after each of the members. -/
lemma visits_wildcard (rest : List Stage) (t : Tree) : visits (.wildcard :: rest) t
    = t.members.flatMap fun m => (visits rest m.2).map (m.1 :: ·) := rfl

/-- A descent goes on at the node and then descends from each of its children. -/
theorem visits_descent (rest : List Stage) {t : Tree} (ht : t.WellFormed) :
    visits (.descent :: rest) t
      = visits rest t ++ visits (.wildcard :: .descent :: rest) t := by
  conv_lhs => rw [visits, Tree.walk_eq, List.flatMap_cons, Tree.at?_nil, Option.elim_some,
    List.flatMap_assoc]
  rw [visits_wildcard]
  have hroot : (visits rest t).map (([] : List Segment) ++ ·) = visits rest t := by simp
  rw [hroot]
  refine congrArg _ (List.flatMap_congr fun m hm => ?_)
  have hchild : t.child? m.1 = some m.2 := (Tree.mem_members_iff ht.sound).mp hm
  rw [visits, List.flatMap_map, List.map_flatMap]
  refine List.flatMap_congr fun w _ => ?_
  rw [Tree.at?_cons, hchild, Option.bind_some]
  cases m.2.at? w with
  | none => rfl
  | some c => simp

/-- Reading returns the nodes at the visited locations, in the order of the visits. -/
theorem matches_eq_visits {stages : List Stage} {t : Tree} (ht : t.WellFormed) :
    (Stage.matches stages t).map some = (visits stages t).map t.at? := by
  induction stages generalizing t with
  | nil => rfl
  | cons stage rest ih =>
    have hbelow : ∀ {w : List Segment} {c : Tree}, t.at? w = some c →
        (Stage.matches rest c).map some = ((visits rest c).map (w ++ ·)).map t.at? := by
      intro w c hc
      rw [ih (ht.at hc), List.map_map]
      refine List.map_congr_left fun p _ => ?_
      rw [Function.comp_apply, Tree.at?_append, hc, Option.bind_some]
    cases stage with
    | terminal => rfl
    | literal p =>
      cases hc : p.at? t with
      | none =>
        rw [visits_literal_eq_none hc, Stage.matches, hc]
        rfl
      | some c =>
        rw [visits_literal_eq_some hc, Stage.matches, hc]
        exact hbelow hc
    | wildcard =>
      rw [Stage.matches, visits_wildcard, ← Tree.map_snd_members, List.flatMap_map,
        List.map_flatMap, List.map_flatMap]
      refine List.flatMap_congr fun m hm => ?_
      have hchild : t.at? [m.1] = some m.2 :=
        Tree.at?_cons_eq_some_iff.mpr ⟨m.2, (Tree.mem_members_iff ht.sound).mp hm, rfl⟩
      exact hbelow hchild
    | descent =>
      have hnodes : (Stage.matches (.descent :: rest) t).map some
          = (t.nodes.map some).flatMap fun o =>
            o.elim [] fun c => (Stage.matches rest c).map some := by
        rw [Stage.matches, List.map_flatMap, List.flatMap_map]
        rfl
      rw [hnodes, Tree.nodes_eq_walk ht, visits, List.flatMap_map, List.map_flatMap]
      refine List.flatMap_congr fun w _ => ?_
      cases hc : t.at? w with
      | none => rfl
      | some c => exact hbelow hc

/-- A location is visited once for every split that leads to it. -/
theorem perm_visits_splits (stages : List Stage) (t : Tree) :
    (visits stages t).Perm ((splits stages t).map List.flatten) := by
  induction stages generalizing t with
  | nil => exact List.Perm.refl _
  | cons stage rest ih =>
    have hbelow : ∀ (w : List Segment) (c : Tree), ((visits rest c).map (w ++ ·)).Perm
        (((splits rest c).map (w :: ·)).map List.flatten) := by
      intro w c
      have hmap : (List.flatten ∘ (w :: ·) : List (List Segment) → List Segment)
          = (w ++ ·) ∘ List.flatten := rfl
      rw [List.map_map, hmap, ← List.map_map]
      exact (ih c).map _
    cases stage with
    | terminal => exact List.Perm.refl _
    | literal p =>
      rw [visits, splits]
      cases p.at? t with
      | none => exact List.Perm.refl _
      | some c => exact hbelow p.segments c
    | wildcard =>
      rw [visits, splits, List.map_flatMap]
      exact List.Perm.flatMap_left _ fun m _ => hbelow [m.1] m.2
    | descent =>
      rw [visits, splits, List.map_flatMap]
      refine ((Tree.perm_walk_locations t).flatMap_right _).trans ?_
      refine List.Perm.flatMap_left _ fun w _ => ?_
      cases t.at? w with
      | none => exact List.Perm.refl _
      | some c => exact hbelow w c

/-- The visited locations are the matching locations of the tree. -/
theorem mem_visits_iff {stages : List Stage} {t : Tree} (ht : t.WellFormed) {q : List Segment} :
    q ∈ visits stages t ↔ Selects stages q ∧ ∃ u, t.at? q = some u := by
  rw [(perm_visits_splits stages t).mem_iff, mem_map_flatten_splits_iff ht]

end Stage

/-! ### Outermost locations -/

/-- The locations of a list that do not lie below another one, each where it comes first. -/
def outermost (L : List (List Segment)) : List (List Segment) :=
  (L.filter fun q => L.all fun w => decide (w <+: q → w = q)).eraseDups

/-- The outermost locations are those that no other one of the list lies above. -/
lemma mem_outermost_iff {L : List (List Segment)} {q : List Segment} :
    q ∈ outermost L ↔ q ∈ L ∧ ∀ w ∈ L, w <+: q → w = q := by
  rw [outermost, List.mem_eraseDups, List.mem_filter, List.all_eq_true]
  simp only [decide_eq_true_eq]

/-- No location is outermost twice. -/
lemma nodup_outermost (L : List (List Segment)) : (outermost L).Nodup := nodup_eraseDups _

/-- Every location of a list is or lies below an outermost one. -/
theorem exists_outermost {L : List (List Segment)} {q : List Segment} (hq : q ∈ L) :
    ∃ w ∈ outermost L, w <+: q := by
  induction hn : q.length using Nat.strong_induction_on generalizing q with
  | h n ih =>
    by_cases hmin : ∀ w ∈ L, w <+: q → w = q
    · exact ⟨q, mem_outermost_iff.mpr ⟨hq, hmin⟩, List.prefix_rfl⟩
    · push Not at hmin
      obtain ⟨w, hw, hwq, hne⟩ := hmin
      have hlen : w.length < n := by
        rw [← hn]
        exact lt_of_le_of_ne hwq.length_le fun h => hne (hwq.eq_of_length h)
      obtain ⟨x, hx, hxw⟩ := ih _ hlen hw rfl
      exact ⟨x, hx, hxw.trans hwq⟩

/-- If what lies above a location of the first list is in the first list, then the outermost locations
are those of the first list and those of what the first list does not cover in the second. -/
theorem outermost_append {V W : List (List Segment)} {keep : List Segment → Bool}
    (h : ∀ q ∈ V, ∀ w ∈ W, w <+: q → w ∈ V)
    (hkeep : ∀ w ∈ W, keep w = true ↔ ∀ v ∈ V, ¬ v <+: w) :
    outermost (V ++ W) = outermost V ++ outermost (W.filter keep) := by
  -- an outermost location of the whole list is one of the first list, or is not covered by it
  have hfirst : V.filter (fun q => (V ++ W).all fun w => decide (w <+: q → w = q))
      = V.filter fun q => V.all fun w => decide (w <+: q → w = q) := by
    refine List.filter_congr fun q hq => ?_
    rw [Bool.eq_iff_iff, List.all_append, Bool.and_eq_true, List.all_eq_true, List.all_eq_true]
    simp only [decide_eq_true_eq]
    exact and_iff_left_of_imp fun hV w hw hwq => hV w (h q hq w hw hwq) hwq
  have hsecond : (W.filter fun q => (V ++ W).all fun w => decide (w <+: q → w = q)).removeAll
        (V.filter fun q => V.all fun w => decide (w <+: q → w = q))
      = (W.filter keep).filter fun q => (W.filter keep).all fun w => decide (w <+: q → w = q) := by
    rw [List.removeAll, List.filter_filter, List.filter_filter]
    refine List.filter_congr fun q hq => ?_
    rw [Bool.eq_iff_iff]
    simp only [List.elem_eq_mem, List.mem_filter, List.all_eq_true, decide_eq_true_eq,
      Bool.and_eq_true, Bool.not_eq_true', decide_eq_false_iff_not, List.mem_append]
    constructor
    · rintro ⟨hcovered, hmin⟩
      refine ⟨fun w hw => hmin w (.inr hw.1), (hkeep q hq).mpr fun v hv hvq => ?_⟩
      have hvq' : v = q := hmin v (.inl hv) hvq
      exact hcovered ⟨hvq' ▸ hv, fun w hw => hmin w (.inl hw)⟩
    · rintro ⟨hmin, hfree⟩
      have hfree := (hkeep q hq).mp hfree
      refine ⟨fun hV => hfree q hV.1 List.prefix_rfl, ?_⟩
      rintro w (hw | hw) hwq
      · exact absurd hwq (hfree w hw)
      · exact hmin w ⟨hw, (hkeep w hw).mpr fun v hv hvw => hfree v hv (hvw.trans hwq)⟩ hwq
  rw [outermost, List.filter_append, List.eraseDups_append, hfirst, hsecond]
  rfl

/-- The outermost ones of locations below a common node are the outermost ones from that node. -/
lemma outermost_map (p : List Segment) (L : List (List Segment)) :
    outermost (L.map (p ++ ·)) = (outermost L).map (p ++ ·) := by
  have hinj : Function.Injective (p ++ · : List Segment → List Segment) :=
    fun _ _ h => List.append_cancel_left h
  rw [outermost, outermost, ← eraseDups_map hinj, List.filter_map]
  refine congrArg (fun L' => (List.map (p ++ ·) L').eraseDups) (List.filter_congr fun q _ => ?_)
  rw [Bool.eq_iff_iff, Function.comp_apply, List.all_eq_true, List.all_eq_true]
  simp [List.prefix_append_right_inj]

/-- Below different members of a node the outermost locations are found apart. -/
lemma outermost_flatMap {ms : List (Segment × Tree)} (hms : (ms.map Prod.fst).Nodup)
    (f : Tree → List (List Segment)) :
    outermost (ms.flatMap fun m => (f m.2).map (m.1 :: ·))
      = ms.flatMap fun m => (outermost (f m.2)).map (m.1 :: ·) := by
  induction ms with
  | nil => rfl
  | cons m ms ih =>
    rw [List.map_cons, List.nodup_cons] at hms
    set V := (f m.2).map (m.1 :: ·) with hV
    set W := ms.flatMap fun m => (f m.2).map (m.1 :: ·) with hW
    have happart : ∀ v ∈ V, ∀ w ∈ W, ¬ v <+: w ∧ ¬ w <+: v := by
      intro v hv w hw
      obtain ⟨v', -, rfl⟩ := List.mem_map.mp hv
      obtain ⟨m', hm', hw⟩ := List.mem_flatMap.mp hw
      obtain ⟨w', -, rfl⟩ := List.mem_map.mp hw
      have hne : m.1 ≠ m'.1 := fun heq =>
        hms.1 (heq ▸ List.mem_map_of_mem (f := Prod.fst) hm')
      exact ⟨fun h => hne (List.cons_prefix_cons.mp h).1,
        fun h => hne (List.cons_prefix_cons.mp h).1.symm⟩
    have hcover : ∀ q ∈ V, ∀ w ∈ W, w <+: q → w ∈ V :=
      fun q hq w hw hwq => absurd hwq (happart q hq w hw).2
    have hall : ∀ w ∈ W, (fun _ => true) w = true ↔ ∀ v ∈ V, ¬ v <+: w :=
      fun w hw => iff_of_true rfl fun v hv => (happart v hv w hw).1
    have hfilter : W.filter (fun _ => true) = W := List.filter_eq_self.mpr fun _ _ => rfl
    rw [List.flatMap_cons, outermost_append hcover hall, hfilter, ih hms.2, List.flatMap_cons]
    exact congrArg (· ++ _) (outermost_map [m.1] (f m.2))

end DocumentPath
