import Mathlib
import DocumentPath.Proofs.Multiplicity

/-!
# Snapshots

The path tree of a document is a snapshot of its locations, children first.  `PathTree.ofTree_snapshot` says
that the snapshot is complete and in order: what lies below a node comes before the node, and what lies below
one member of a node comes before what lies below a later one.  Its leaves are the locations of bare nodes
(`PathTree.leaves_ofTree`), and it holds as many paths as the document has nodes.
-/

namespace DocumentPath

namespace Tree

/-- The node is a scalar, or a container with nothing in it. -/
def isBare (t : Tree) : Bool := !t.isContainer || t.children.isEmpty

/-- A tree is bare if it has no children. -/
lemma isBare_iff {t : Tree} : t.isBare = true ↔ t.children = [] := by
  cases t <;> simp [isBare, isContainer, kind, Kind.isContainer, children]

/-- A tree that is not bare has members. -/
lemma members_ne_nil {t : Tree} (h : t.isBare = false) : t.members ≠ [] := by
  intro hnil
  rw [isBare_iff.mpr (by rw [← map_snd_members, hnil, List.map_nil])] at h
  exact absurd h (by simp)

/-- The locations below a node are listed in the order in which the node lists them. -/
lemma locations_sublist {t u : Tree} (ht : t.WellFormed) {w : List Segment}
    (hu : t.at? w = some u) : (u.locations.map (w ++ ·)).Sublist t.locations := by
  induction w generalizing t with
  | nil =>
    rw [Option.some.inj hu]
    simp
  | cons s w ih =>
    obtain ⟨c, hc, hu⟩ := at?_cons_eq_some_iff.mp hu
    have hmember : [(s, c)].Sublist t.members :=
      List.singleton_sublist.mpr ((mem_members_iff ht.sound).mpr hc)
    have hchild : (c.locations.map (s :: ·)).Sublist (locationsOfMembers t.members) := by
      simpa [locationsOfMembers] using hmember.flatMap fun m => m.2.locations.map (m.1 :: ·)
    have hbelow := (ih (ht.child hc) hu).map (s :: ·)
    rw [List.map_map] at hbelow
    rw [locations_eq t]
    exact (hbelow.trans hchild).trans (List.sublist_append_left _ _)

/-- What lies below a member of a node is listed before what lies below a later member. -/
lemma siblings_sublist {t u : Tree} (ht : t.WellFormed) {w p q : List Segment} {s s' : Segment}
    (hu : t.at? w = some u) (hs : [s, s'].Sublist (u.members.map Prod.fst))
    (hp : w ++ s :: p ∈ t.locations) (hq : w ++ s' :: q ∈ t.locations) :
    [w ++ s :: p, w ++ s' :: q].Sublist t.locations := by
  have hbelow {m : Segment × Tree} (hm : m ∈ u.members) {p : List Segment}
      (hp : w ++ m.1 :: p ∈ t.locations) : p ∈ m.2.locations := by
    have hchild : u.child? m.1 = some m.2 := (mem_members_iff (ht.at hu).sound).mp hm
    rw [mem_locations_iff ht, at?_append, hu, Option.bind_some, at?_cons, hchild,
      Option.bind_some] at hp
    exact (mem_locations_iff ((ht.at hu).child hchild)).mpr hp
  obtain ⟨ms, hms, hsegments⟩ := List.sublist_map_iff.mp hs
  obtain ⟨m, m', rfl⟩ : ∃ m m', ms = [m, m'] := List.length_eq_two.mp
    ((List.length_map _).symm.trans (congrArg List.length hsegments.symm))
  obtain ⟨rfl, rfl⟩ : s = m.1 ∧ s' = m'.1 := by simpa using hsegments
  have hmem : m ∈ u.members ∧ m' ∈ u.members :=
    ⟨hms.subset List.mem_cons_self, hms.subset (by simp)⟩
  have hpair : [m.1 :: p, m'.1 :: q].Sublist u.locations := by
    rw [locations_eq]
    refine List.Sublist.trans ?_ (List.sublist_append_left _ _)
    refine List.Sublist.trans ?_ (hms.flatMap fun m => m.2.locations.map (m.1 :: ·))
    simp only [List.flatMap_cons, List.flatMap_nil, List.append_nil]
    exact (List.singleton_sublist.mpr (List.mem_map_of_mem (hbelow hmem.1 hp))).append
      (List.singleton_sublist.mpr (List.mem_map_of_mem (hbelow hmem.2 hq)))
  exact (hpair.map (w ++ ·)).trans (locations_sublist ht hu)

/-- A location is continued by another one unless its node is bare. -/
lemma continued_iff {t u : Tree} (ht : t.WellFormed) {p : List Segment} (hu : t.at? p = some u) :
    (∀ q ∈ t.locations, p <+: q → q = p) ↔ u.isBare = true := by
  constructor
  · intro hlast
    by_contra hbare
    obtain ⟨m, hm⟩ := List.exists_mem_of_ne_nil _ (members_ne_nil (by simpa using hbare))
    have hchild : u.child? m.1 = some m.2 := (mem_members_iff (ht.at hu).sound).mp hm
    have hmem : p ++ [m.1] ∈ t.locations := by
      rw [mem_locations_iff ht, at?_concat, hu, Option.bind_some, hchild]
      rfl
    simpa using hlast _ hmem (List.prefix_append p [m.1])
  · rintro hbare q hq ⟨r, rfl⟩
    cases r with
    | nil => exact List.append_nil p
    | cons s r =>
      rw [mem_locations_iff ht, at?_append, hu, Option.bind_some, at?_cons,
        child?_of_childless (isBare_iff.mp hbare)] at hq
      exact absurd hq (by simp)

end Tree

namespace Selector

/-- A descent matches every location. -/
lemma matching_descent {s : Selector} (h : s.stages = [.descent, .terminal]) (t : Tree) :
    s.matching t = t.walk := by
  refine List.filter_eq_self.mpr fun q _ => ?_
  rw [selects, h, decide_eq_true_eq]
  exact Stage.selects_descent_iff.mpr ⟨q, [], Stage.selects_terminal_iff.mpr rfl, by simp⟩

end Selector

namespace PathTree

/-- The leaves of the path tree of a document are the locations of its bare nodes. -/
lemma leaves_ofTree {t : Tree} (ht : t.WellFormed) : (ofTree t).leaves
    = (ofTree t).paths.filter fun p => (t.at? p).any Tree.isBare := by
  have hconsistent : Consistent (ofTree t) := (Consistent.childless []).record t
  rw [hconsistent.leaves_eq, paths_ofTree ht]
  refine List.filter_congr fun p hp => ?_
  obtain ⟨u, hu⟩ := Option.isSome_iff_exists.mp ((Tree.mem_locations_iff ht).mp hp)
  rw [hu, Option.any_some, Bool.eq_iff_iff, decide_eq_true_iff]
  exact Tree.continued_iff ht hu

/-- **A snapshot is complete, without repetition, and children first.**  The path tree of a document lists
each location once and nothing else, no path before one that continues it, what lies below a member of a node
before what lies below a later member, and the root last.  These are the locations that `/**` matches.  The
leaves are the locations of scalars and empty containers, in the same order, and there are as many paths as
the document has nodes. -/
theorem ofTree_snapshot {t : Tree} (ht : t.WellFormed) :
    (ofTree t).paths.Nodup ∧
    (∀ p, p ∈ (ofTree t).paths ↔ ∃ u, t.at? p = some u) ∧
    (ofTree t).paths.Pairwise (fun p q => ¬ p <+: q) ∧
    (∀ w u s s' p q, t.at? w = some u → [s, s'].Sublist (u.members.map Prod.fst) →
      w ++ s :: p ∈ (ofTree t).paths → w ++ s' :: q ∈ (ofTree t).paths →
      [w ++ s :: p, w ++ s' :: q].Sublist (ofTree t).paths) ∧
    (ofTree t).paths.getLast? = some [] ∧
    (∃ s, Selector.compile "/**" = .ok s ∧ (ofTree t).paths.Perm (s.matching t) ∧
      ((s.all t).map some).Perm ((ofTree t).paths.map t.at?)) ∧
    (ofTree t).leaves = (ofTree t).paths.filter (fun p => (t.at? p).any Tree.isBare) ∧
    (ofTree t).size = t.nodes.length := by
  have hcompile : Selector.compile "/**" = .ok ⟨"/**", [.descent, .terminal]⟩ := rfl
  have hmatching : t.locations.Perm (Selector.matching ⟨"/**", [.descent, .terminal]⟩ t) := by
    rw [Selector.matching_descent rfl]
    exact (Tree.perm_walk_locations t).symm
  have hleaves := leaves_ofTree ht
  rw [size, paths_ofTree ht] at *
  refine ⟨Tree.nodup_locations ht, fun p => ?_, ?_, fun w u s s' p q => Tree.siblings_sublist ht, ?_,
    ⟨_, hcompile, hmatching, ?_⟩, hleaves, ?_⟩
  · rw [Tree.mem_locations_iff ht, Option.isSome_iff_exists]
  · exact (Tree.pairwise_locations ht).imp fun h => h.1
  · rw [Tree.locations_eq, List.getLast?_concat]
  · exact (Selector.reportsOnce_of_count_le (by decide) ht).trans (hmatching.map _).symm
  · simpa using (Tree.perm_nodes_locations ht).length_eq.symm

/-- The snapshot of `{"a": {"b": 1}, "c": [true, {}]}`. -/
theorem ofTree_snapshot_two_fields : ∃ t : Tree, t.WellFormed ∧
    (ofTree t).paths = [[⟨"a"⟩, ⟨"b"⟩], [⟨"a"⟩], [⟨"c"⟩, ⟨"0"⟩], [⟨"c"⟩, ⟨"1"⟩], [⟨"c"⟩], []] ∧
    (ofTree t).leaves = [[⟨"a"⟩, ⟨"b"⟩], [⟨"c"⟩, ⟨"0"⟩], [⟨"c"⟩, ⟨"1"⟩]] ∧
    (ofTree t).paths.Nodup ∧ (ofTree t).size = t.nodes.length := by
  have ht : (Tree.map [("a", .map [("b", .number (.int 1))]),
      ("c", .array [.bool true, .map []])]).WellFormed := by decide
  obtain ⟨hnodup, -, -, -, -, -, -, hsize⟩ := ofTree_snapshot ht
  exact ⟨_, ht, by decide, by decide, hnodup, hsize⟩

end PathTree

end DocumentPath
