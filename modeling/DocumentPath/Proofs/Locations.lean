import Mathlib
import DocumentPath.Proofs.PrefixTrees
import DocumentPath.Proofs.Trees

/-!
# The locations of a tree

`Tree.locations` lists the location of every node, the locations below a node before the node.  It holds
each location once (`mem_locations_iff`, `nodup_locations`), and the path tree of a document records this
very list (`PathTree.paths_ofTree`).

The order of the list matters for copying.  `Tree.Precedes t p q` says that `q` neither is `p` nor lies
below it, and that wherever `p` and `q` pass through the same array of `t`, the element of `q` does not
come before that of `p`.  Going through the children before the node goes from one location to the next
in this relation (`pairwise_locations`).
-/

namespace DocumentPath

namespace Tree

mutual

/-- The location of every node, the locations below a node before the node. -/
def locations : Tree → List (List Segment)
  | .array items => locationsOfItems 0 items ++ [[]]
  | .map fields => locationsOfFields fields ++ [[]]
  | _ => [[]]

/-- The locations in a list of items, the first of them at index `i`. -/
def locationsOfItems (i : ℕ) : List Tree → List (List Segment)
  | [] => []
  | t :: rest => t.locations.map (Segment.ofIndex i :: ·) ++ locationsOfItems (i + 1) rest

/-- The locations in a list of fields. -/
def locationsOfFields : List (String × Tree) → List (List Segment)
  | [] => []
  | (k, t) :: rest => t.locations.map ((⟨k⟩ : Segment) :: ·) ++ locationsOfFields rest

end

/-- The locations below the members of a node. -/
def locationsOfMembers (ms : List (Segment × Tree)) : List (List Segment) :=
  ms.flatMap fun m => m.2.locations.map (m.1 :: ·)

/-- The locations of items are those of each under its index. -/
lemma locationsOfItems_eq (i : ℕ) (items : List Tree) : locationsOfItems i items
    = locationsOfMembers ((items.zipIdx i).map fun (t, j) => (Segment.ofIndex j, t)) := by
  induction items generalizing i with
  | nil => rfl
  | cons t rest ih =>
    rw [locationsOfItems, ih, List.zipIdx_cons, List.map_cons, locationsOfMembers,
      locationsOfMembers, List.flatMap_cons]

/-- The locations of fields are those of each under its key. -/
lemma locationsOfFields_eq (fields : List (String × Tree)) : locationsOfFields fields
    = locationsOfMembers (fields.map fun (k, t) => (⟨k⟩, t)) := by
  induction fields with
  | nil => rfl
  | cons f rest ih =>
    obtain ⟨k, t⟩ := f
    rw [locationsOfFields, ih, List.map_cons, locationsOfMembers, locationsOfMembers,
      List.flatMap_cons]

/-- The locations of a tree are those below its members and, last, the root. -/
theorem locations_eq (t : Tree) : t.locations = locationsOfMembers t.members ++ [[]] := by
  cases t with
  | array items => rw [locations, locationsOfItems_eq, members]
  | map fields => rw [locations, locationsOfFields_eq, members]
  | null | bool | number | text => simp [locations, members, locationsOfMembers]

/-- The root is a location of every tree. -/
lemma nil_mem_locations (t : Tree) : [] ∈ t.locations := by
  rw [locations_eq]
  exact List.mem_append_right _ (List.mem_singleton_self _)

/-- A location leads through a member. -/
lemma cons_mem_locations_iff {t : Tree} {s : Segment} {p : List Segment} :
    s :: p ∈ t.locations ↔ ∃ c, (s, c) ∈ t.members ∧ p ∈ c.locations := by
  rw [locations_eq]
  simp only [locationsOfMembers, List.mem_append, List.mem_flatMap, List.mem_map, List.cons.injEq,
    List.mem_singleton, reduceCtorEq, or_false, Prod.exists]
  constructor
  · rintro ⟨s', c, hmem, q, hq, rfl, rfl⟩
    exact ⟨c, hmem, hq⟩
  · rintro ⟨c, hmem, hp⟩
    exact ⟨s, c, hmem, p, hp, rfl, rfl⟩

/-- The listed locations of a well-formed tree are those at which it has a node. -/
theorem mem_locations_iff {t : Tree} (ht : t.WellFormed) {p : List Segment} :
    p ∈ t.locations ↔ (t.at? p).isSome := by
  induction p generalizing t with
  | nil => simp [nil_mem_locations]
  | cons s p ih =>
    simp only [cons_mem_locations_iff, Option.isSome_iff_exists, at?_cons_eq_some_iff]
    constructor
    · rintro ⟨c, hmem, hp⟩
      have hc : t.child? s = some c := (mem_members_iff ht.sound).mp hmem
      obtain ⟨u, hu⟩ := Option.isSome_iff_exists.mp ((ih (ht.child hc)).mp hp)
      exact ⟨u, c, hc, hu⟩
    · rintro ⟨u, c, hc, hu⟩
      have hsome : (c.at? p).isSome := Option.isSome_iff_exists.mpr ⟨u, hu⟩
      exact ⟨c, (mem_members_iff ht.sound).mpr hc, (ih (ht.child hc)).mpr hsome⟩

/-- The nodes of a tree are what stands at its locations. -/
theorem perm_nodes_locations {t : Tree} (ht : t.WellFormed) :
    (t.nodes.map some).Perm (t.locations.map t.at?) := by
  induction t using byChildren with
  | step t ih =>
    have hmember : ∀ m ∈ t.members,
        (m.2.nodes.map some).Perm ((m.2.locations.map (m.1 :: ·)).map t.at?) := by
      intro m hm
      have hchild : t.child? m.1 = some m.2 := (mem_members_iff ht.sound).mp hm
      have hat : (t.at? ∘ (m.1 :: ·)) = m.2.at? := by
        funext p
        rw [Function.comp_apply, at?_cons, hchild, Option.bind_some]
      rw [List.map_map, hat]
      exact ih m.2 (mem_children_of_mem_members hm) (ht.child hchild)
    have hbelow : (t.members.flatMap fun m => m.2.nodes.map some).Perm
        ((locationsOfMembers t.members).map t.at?) := by
      rw [locationsOfMembers, List.map_flatMap]
      exact List.Perm.flatMap_left _ hmember
    have hchildren : t.children.flatMap nodes = t.members.flatMap fun m => m.2.nodes := by
      rw [← map_snd_members, List.flatMap_map]
    rw [nodes_eq, locations_eq, List.map_cons, List.map_append, List.map_singleton, at?_nil,
      hchildren, List.map_flatMap]
    exact (hbelow.cons _).trans (List.perm_append_singleton _ _).symm

/-! ### The order of the locations -/

/-- `q` neither is `p` nor lies below it, and in no array that both pass through does `q` go to an
earlier element than `p`. -/
def Precedes (t : Tree) (p q : List Segment) : Prop :=
  ¬ p <+: q ∧ ∀ w s s' i j items, t.at? w = some (.array items) → s.index? = some i →
    s'.index? = some j → w ++ [s] <+: p → w ++ [s'] <+: q → i ≤ j

/-- Locations below one node are ordered as they are from that node. -/
lemma Precedes.append {t c : Tree} {w p q : List Segment} (hc : t.at? w = some c)
    (h : Precedes c p q) : Precedes t (w ++ p) (w ++ q) := by
  refine ⟨fun hpq => h.1 ((List.prefix_append_right_inj w).mp hpq), ?_⟩
  intro u s s' i j items hu hs hs' hp hq
  by_cases hlen : w.length ≤ u.length
  · -- the array stands at or below the common node
    have hwu : w <+: u := by
      have hup : u <+: w ++ p := (List.prefix_append u _).trans hp
      exact List.prefix_of_prefix_length_le (List.prefix_append w p) hup hlen
    obtain ⟨u', rfl⟩ := hwu
    rw [List.append_assoc, List.prefix_append_right_inj] at hp hq
    rw [at?_append, hc, Option.bind_some] at hu
    exact h.2 u' s s' i j items hu hs hs' hp hq
  · -- the array stands above the common node, so both go through the same element
    have hshort : ∀ x : Segment, (u ++ [x]).length ≤ w.length := fun x => by
      rw [List.length_append, List.length_singleton]
      omega
    have hpw := List.prefix_of_prefix_length_le hp (List.prefix_append w p) (hshort s)
    have hqw := List.prefix_of_prefix_length_le hq (List.prefix_append w q) (hshort s')
    have hsame : u ++ [s] = u ++ [s'] :=
      (List.prefix_of_prefix_length_le hpw hqw (by simp)).eq_of_length (by simp)
    have hseg : s = s' := by simpa using hsame
    rw [hseg, hs'] at hs
    exact (Option.some.inj hs).ge

/-- Every other location precedes the root. -/
lemma precedes_nil {t : Tree} {p : List Segment} (hp : p ≠ []) : Precedes t p [] := by
  refine ⟨fun h => hp (List.prefix_nil.mp h), ?_⟩
  intro w _ _ _ _ _ _ _ _ _ hq
  exact absurd (List.prefix_nil.mp hq) (by simp)

/-- The root precedes nothing, as everything lies below it. -/
lemma eq_nil_of_precedes_root {t : Tree} {ts : List (List Segment)}
    (h : ∀ q ∈ ts, Precedes t [] q) : ts = [] :=
  List.eq_nil_iff_forall_not_mem.mpr fun q hq => (h q hq).1 List.nil_prefix

/-- Locations in different members of a node are ordered as the members are. -/
lemma precedes_cons_cons {t : Tree} {s s' : Segment} {p q : List Segment} (hne : s ≠ s')
    (hidx : ∀ items i j, t = .array items → s.index? = some i → s'.index? = some j → i ≤ j) :
    Precedes t (s :: p) (s' :: q) := by
  refine ⟨fun h => hne (List.cons_prefix_cons.mp h).1, ?_⟩
  intro w x y i j items hw hx hy hp hq
  cases w with
  | nil =>
    have ht : t = .array items := Option.some.inj hw
    rw [(List.cons_prefix_cons.mp hp).1] at hx
    rw [(List.cons_prefix_cons.mp hq).1] at hy
    exact hidx items i j ht hx hy
  | cons z w =>
    have hs : z = s := (List.cons_prefix_cons.mp hp).1
    have hs' : z = s' := (List.cons_prefix_cons.mp hq).1
    exact absurd (hs.symm.trans hs') hne

/-- Locations in different members of a node come in the order in which the members are listed. -/
lemma pairwise_members {t : Tree} (ht : t.Sound) : t.members.Pairwise fun m m' =>
    ∀ p q, Precedes t (m.1 :: p) (m'.1 :: q) := by
  have hne : t.members.Pairwise fun m m' => m.1 ≠ m'.1 := List.pairwise_map.mp (nodup_members ht)
  cases t with
  | array items =>
    have hsorted : (members (.array items)).Pairwise fun m m' =>
        ∀ i j, m.1.index? = some i → m'.1.index? = some j → i ≤ j := by
      unfold members
      rw [List.pairwise_map]
      have hlt : (items.zipIdx.map Prod.snd).Pairwise (· < ·) := by
        rw [List.zipIdx_map_snd, ← List.range_eq_range']
        exact List.pairwise_lt_range
      refine (List.pairwise_map.mp hlt).imp ?_
      intro a b hab i j hi hj
      rw [← Segment.ofIndex_injective (Segment.eq_ofIndex_of_index? hi),
        ← Segment.ofIndex_injective (Segment.eq_ofIndex_of_index? hj)]
      exact hab.le
    refine (hne.and hsorted).imp ?_
    intro m m' h p q
    exact precedes_cons_cons h.1 fun _ i j _ hi hj => h.2 i j hi hj
  | map fields =>
    refine hne.imp ?_
    intro m m' h p q
    exact precedes_cons_cons h fun _ _ _ hmap => absurd hmap (by simp)
  | null | bool | number | text => exact List.Pairwise.nil

/-- What is listed below the members of a node keeps the order if it does below each of them. -/
theorem pairwise_flatMap_members {t : Tree} (ht : t.Sound)
    {f : Tree → List (List Segment)} (hf : ∀ m ∈ t.members, (f m.2).Pairwise (Precedes m.2)) :
    (t.members.flatMap fun m => (f m.2).map (m.1 :: ·)).Pairwise (Precedes t) := by
  rw [List.pairwise_flatMap]
  constructor
  · intro m hm
    have hchild : t.at? [m.1] = some m.2 :=
      at?_cons_eq_some_iff.mpr ⟨m.2, (mem_members_iff ht).mp hm, rfl⟩
    rw [List.pairwise_map]
    exact (hf m hm).imp fun h => Precedes.append hchild h
  · refine (pairwise_members ht).imp ?_
    intro m m' hmm p hp q hq
    obtain ⟨p', -, rfl⟩ := List.mem_map.mp hp
    obtain ⟨q', -, rfl⟩ := List.mem_map.mp hq
    exact hmm p' q'

/-- The locations of a well-formed tree are listed in the order of `Precedes`. -/
theorem pairwise_locations {t : Tree} (ht : t.WellFormed) :
    t.locations.Pairwise (Precedes t) := by
  induction t using byChildren with
  | step t ih =>
    rw [locations_eq, List.pairwise_append]
    refine ⟨?_, List.pairwise_singleton _ _, ?_⟩
    · refine pairwise_flatMap_members ht.sound fun m hm => ?_
      have hchild : t.child? m.1 = some m.2 := (mem_members_iff ht.sound).mp hm
      exact ih m.2 (mem_children_of_mem_members hm) (ht.child hchild)
    · intro p hp q hq
      rw [List.mem_singleton.mp hq]
      obtain ⟨m, -, hp⟩ := List.mem_flatMap.mp hp
      obtain ⟨p', -, rfl⟩ := List.mem_map.mp hp
      exact precedes_nil (List.cons_ne_nil _ _)

/-- No location is listed twice. -/
theorem nodup_locations {t : Tree} (ht : t.WellFormed) : t.locations.Nodup := by
  refine (pairwise_locations ht).imp ?_
  rintro p _ h rfl
  exact h.1 List.prefix_rfl

end Tree

namespace Pointer

/-- What stands at a location is a child of the node that the head of its pointer leads to. -/
lemma at?_of_tail? {p : Pointer} {s : Segment} (h : p.tail? = some s) (t : Tree) :
    p.at? t = (p.head.at? t).bind (·.child? s) := by
  have hsegments : p.segments = p.head.segments ++ [s] := (List.dropLast_append_getLast? s h).symm
  rw [at?, hsegments, Tree.at?_concat]
  rfl

end Pointer

namespace PathTree

/-! ### The path tree of a document -/

/-- Recording a tree records its members one after another. -/
lemma record_eq_foldl (t : Tree) (e : PathTree) :
    record t e = t.members.foldl (fun e m => e.changeChild m.1 (record m.2)) e := by
  cases t with
  | array items =>
    have hitems : ∀ i e, recordItems i items e = ((items.zipIdx i).map fun (t, j) =>
        (Segment.ofIndex j, t)).foldl (fun e m => e.changeChild m.1 (record m.2)) e := by
      induction items with
      | nil => intro i e; rfl
      | cons t rest ih =>
        intro i e
        rw [recordItems, ih, List.zipIdx_cons, List.map_cons, List.foldl_cons]
    exact hitems 0 e
  | map fields =>
    have hfields : ∀ e, recordFields fields e = (fields.map fun (k, t) =>
        ((⟨k⟩ : Segment), t)).foldl (fun e m => e.changeChild m.1 (record m.2)) e := by
      induction fields with
      | nil => intro e; rfl
      | cons f rest ih =>
        intro e
        obtain ⟨k, t⟩ := f
        rw [recordFields, ih, List.map_cons, List.foldl_cons]
    exact hfields e
  | null | bool | number | text => rfl

/-- Recording below an element leaves its path. -/
lemma path_record (t : Tree) (e : PathTree) : (record t e).path = e.path := by
  rw [record_eq_foldl]
  induction t.members generalizing e with
  | nil => rfl
  | cons m ms ih => rw [List.foldl_cons, ih, path_changeChild]

/-- A tree recorded at a childless element gives that element a child for each member of the tree. -/
lemma record_childless {t : Tree} (ht : t.Sound) (w : List Segment) : record t (element w [])
    = element w (t.members.map fun m => record m.2 (element (w ++ [m.1]) [])) := by
  -- the members to come are new to the element, since members stand under different segments
  have hmembers (ms : List (Segment × Tree)) (hnodup : (ms.map Prod.fst).Nodup)
      (es : List PathTree) (hnew : ∀ m ∈ ms, ∀ e ∈ es, e.path.getLast? ≠ some m.1) :
      ms.foldl (fun e m => e.changeChild m.1 (record m.2)) (element w es)
        = element w (es ++ ms.map fun m => record m.2 (element (w ++ [m.1]) [])) := by
    induction ms generalizing es with
    | nil => rw [List.foldl_nil, List.map_nil, List.append_nil]
    | cons m ms ih =>
      rw [List.map_cons, List.nodup_cons] at hnodup
      rw [List.forall_mem_cons] at hnew
      rw [List.foldl_cons, changeChild, changeAmong_eq_append hnew.1, ih hnodup.2, List.map_cons,
        List.append_assoc, List.singleton_append]
      intro m' hm' e he
      rcases List.mem_append.mp he with he | he
      · exact hnew.2 m' hm' e he
      · rw [List.mem_singleton.mp he, path_record, path, List.getLast?_concat]
        intro heq
        exact hnodup.1 (Option.some.inj heq ▸ List.mem_map_of_mem (f := Prod.fst) hm')
  rw [record_eq_foldl, hmembers t.members (Tree.nodup_members ht) [] (by simp), List.nil_append]

/-- A tree recorded at a childless element lists the locations of the tree below that element. -/
lemma paths_record {t : Tree} (ht : t.WellFormed) (w : List Segment) :
    (record t (element w [])).paths = t.locations.map (w ++ ·) := by
  induction t using Tree.byChildren generalizing w with
  | step t ih =>
    rw [record_childless ht.sound, paths_element, List.flatMap_map, Tree.locations_eq,
      Tree.locationsOfMembers, List.map_append, List.map_flatMap, List.map_singleton,
      List.append_nil]
    refine congrArg (· ++ [w]) (List.flatMap_congr fun m hm => ?_)
    have hchild : t.child? m.1 = some m.2 := (Tree.mem_members_iff ht.sound).mp hm
    rw [ih m.2 (Tree.mem_children_of_mem_members hm) (ht.child hchild), List.map_map]
    refine List.map_congr_left fun p _ => ?_
    rw [Function.comp_apply, List.append_assoc, List.singleton_append]

/-- The path tree of a document records its locations. -/
theorem paths_ofTree {t : Tree} (ht : t.WellFormed) : (ofTree t).paths = t.locations := by
  rw [ofTree, empty, paths_record ht]
  exact List.map_id _

/-- Recording a tree keeps a path tree consistent. -/
lemma Consistent.record {e : PathTree} (h : Consistent e) (t : Tree) :
    Consistent (PathTree.record t e) := by
  induction t using Tree.byChildren generalizing e with
  | step t ih =>
    rw [record_eq_foldl]
    have hmembers (ms : List (Segment × Tree)) (hms : ∀ m ∈ ms, m ∈ t.members) :
        Consistent (ms.foldl (fun e m => e.changeChild m.1 (PathTree.record m.2)) e) := by
      induction ms generalizing e with
      | nil => exact h
      | cons m ms ihms =>
        rw [List.forall_mem_cons] at hms
        refine ihms (h.changeChild (path_record m.2) fun e he => ?_) hms.2
        exact ih m.2 (Tree.mem_children_of_mem_members hms.1) he
    exact hmembers t.members fun _ h => h

end PathTree

end DocumentPath
