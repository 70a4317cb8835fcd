import Mathlib
import DocumentPath.PathTree
import DocumentPath.Proofs.FirstOccurrences

/-!
# Prefix trees

A path tree is consistent if every element holds the path of its parent and one segment more, and the
children of an element differ in that segment (`PathTree.Consistent`).  In a consistent tree every path is
listed once, after all paths that continue it; the leaves are the paths that no other path continues; and
an element is found at every listed path, which is the path that it holds.

A change of one child keeps a tree consistent, whether the child is there or created.  Hence the tree of any
sequence of chains is consistent, and `PathTree.namesAt_insert` says what one more chain does to the children
at any path.  The tree of a sequence of chains is the tree of their prefixes
(`PathTree.ofChains_prefix_tree`).
-/

namespace DocumentPath

namespace PathTree

/-- The paths of elements are those of each of them. -/
lemma pathsOf_eq (es : List PathTree) : pathsOf es = es.flatMap paths := by
  induction es with
  | nil => rfl
  | cons e rest ih => rw [pathsOf, ih, List.flatMap_cons]

/-- The leaves of elements are those of each of them. -/
lemma leavesOf_eq (es : List PathTree) : leavesOf es = es.flatMap leaves := by
  induction es with
  | nil => rfl
  | cons e rest ih => rw [leavesOf, ih, List.flatMap_cons]

/-- An element has the paths of its children and its own. -/
lemma paths_element (w : List Segment) (es : List PathTree) :
    (element w es).paths = es.flatMap paths ++ [w] := by
  rw [paths, pathsOf_eq]

/-- The path of an element is among its paths. -/
lemma path_mem_paths (e : PathTree) : e.path ∈ e.paths := by
  obtain ⟨w, es⟩ := e
  rw [paths_element]
  exact List.mem_append_right _ (List.mem_singleton_self w)

/-- An element finds a segment among the last segments of its children. -/
lemma find?_singleton (w : List Segment) (es : List PathTree) (s : Segment) :
    (element w es).find? [s] = es.find? (·.path.getLast? == some s) := by
  rw [find?, children]
  cases es.find? (·.path.getLast? == some s) <;> rfl

/-- The child found for a segment ends with it. -/
lemma getLast?_of_find? {es : List PathTree} {s : Segment} {e : PathTree}
    (h : es.find? (·.path.getLast? == some s) = some e) : e.path.getLast? = some s := by
  have hlast := List.find?_some h
  exact beq_iff_eq.mp hlast

/-- An element finds a path one segment at a time. -/
lemma find?_cons (e : PathTree) (s : Segment) (p : List Segment) :
    e.find? (s :: p) = (e.find? [s]).bind (find? p) := by
  obtain ⟨w, es⟩ := e
  rw [find?_singleton, find?, children]

/-! ### Changing one child -/

/-- A change of the child that a segment leads to changes the first child under that segment, or creates one
at the end. -/
lemma changeAmong_cases (w : List Segment) (s : Segment) (f : PathTree → PathTree)
    (es : List PathTree) :
    (∃ before e after, es = before ++ e :: after ∧ e.path.getLast? = some s ∧
      (∀ e' ∈ before, e'.path.getLast? ≠ some s) ∧
      changeAmong w s f es = before ++ f e :: after) ∨
    ((∀ e ∈ es, e.path.getLast? ≠ some s) ∧
      changeAmong w s f es = es ++ [f (element (w ++ [s]) [])]) := by
  induction es with
  | nil => exact .inr ⟨by simp, rfl⟩
  | cons e rest ih =>
    by_cases he : e.path.getLast? = some s
    · exact .inl ⟨[], e, rest, rfl, he, by simp, by rw [changeAmong, if_pos he, List.nil_append]⟩
    · rw [changeAmong, if_neg he]
      refine ih.imp ?_ ?_
      · rintro ⟨before, e', after, rfl, he', hbefore, hchange⟩
        refine ⟨e :: before, e', after, rfl, he', ?_, by rw [hchange, List.cons_append]⟩
        exact List.forall_mem_cons.mpr ⟨he, hbefore⟩
      · rintro ⟨hrest, hchange⟩
        exact ⟨List.forall_mem_cons.mpr ⟨he, hrest⟩, by rw [hchange, List.cons_append]⟩

/-- A segment that leads to none of the children is created after them. -/
lemma changeAmong_eq_append {w : List Segment} {s : Segment} {f : PathTree → PathTree}
    {es : List PathTree} (h : ∀ e ∈ es, e.path.getLast? ≠ some s) :
    changeAmong w s f es = es ++ [f (element (w ++ [s]) [])] := by
  rcases changeAmong_cases w s f es with ⟨before, e, after, rfl, he, -⟩ | ⟨-, hchange⟩
  · exact absurd he (h e (by simp))
  · exact hchange

/-- Changing a child leaves the path of an element. -/
lemma path_changeChild (s : Segment) (f : PathTree → PathTree) (e : PathTree) :
    (e.changeChild s f).path = e.path := by
  cases e
  rfl

/-- Inserting a chain leaves the path of an element. -/
lemma path_insert (c : List Segment) (e : PathTree) : (e.insert c).path = e.path := by
  cases c with
  | nil => rfl
  | cons s rest => exact path_changeChild s _ e

/-! ### Consistent trees -/

/-- Every element holds the path of its parent and one segment more, and no two children of an element hold
the same path. -/
inductive Consistent : PathTree → Prop
  | element {w : List Segment} {es : List PathTree} (names : List Segment)
    (hpaths : es.map path = names.map fun s => w ++ [s]) (hnodup : names.Nodup)
    (hbelow : ∀ e ∈ es, Consistent e) : Consistent (element w es)

namespace Consistent

variable {e : PathTree} {w : List Segment} {es : List PathTree}

/-- An element without children is consistent. -/
lemma childless (w : List Segment) : Consistent (PathTree.element w []) :=
  .element [] rfl List.nodup_nil (by simp)

/-- The children of a consistent element are consistent. -/
lemma child (h : Consistent (PathTree.element w es)) {e : PathTree} (he : e ∈ es) :
    Consistent e := by
  cases h with
  | element names hpaths hnodup hbelow => exact hbelow e he

/-- A child holds the path of its parent and one segment more. -/
lemma exists_path (h : Consistent (PathTree.element w es)) {e : PathTree} (he : e ∈ es) :
    ∃ s, e.path = w ++ [s] := by
  cases h with
  | element names hpaths hnodup hbelow =>
    have hmem : e.path ∈ names.map fun s => w ++ [s] := hpaths ▸ List.mem_map_of_mem he
    obtain ⟨s, -, hs⟩ := List.mem_map.mp hmem
    exact ⟨s, hs.symm⟩

/-- The children of an element hold different paths. -/
lemma nodup_children (h : Consistent (PathTree.element w es)) : (es.map path).Nodup := by
  cases h with
  | element names hpaths hnodup hbelow =>
    rw [hpaths]
    exact hnodup.map fun s s' hs => by simpa using hs

/-- A child is under a segment if its path ends in that segment. -/
lemma path_eq_iff (h : Consistent (PathTree.element w es)) {e : PathTree} (he : e ∈ es)
    {s : Segment} : e.path.getLast? = some s ↔ e.path = w ++ [s] := by
  obtain ⟨s', hs'⟩ := h.exists_path he
  rw [hs', List.getLast?_concat, Option.some_inj, List.append_cancel_left_eq, List.singleton_inj]

/-- A change of one child keeps a tree consistent. -/
theorem changeChild {s : Segment} {f : PathTree → PathTree} (hpath : ∀ e, (f e).path = e.path)
    (hf : ∀ e, Consistent e → Consistent (f e)) (h : Consistent e) :
    Consistent (e.changeChild s f) := by
  obtain ⟨w, es⟩ := e
  rw [PathTree.changeChild]
  rcases changeAmong_cases w s f es with
    ⟨before, e, after, rfl, -, -, hchange⟩ | ⟨hnew, hchange⟩
  · rw [hchange]
    cases h with
    | element names hpaths hnodup hbelow =>
      refine .element names ?_ hnodup fun e' he' => ?_
      · rw [← hpaths, List.map_append, List.map_append, List.map_cons, List.map_cons, hpath]
      · rcases List.mem_append.mp he' with hb | ha
        · exact hbelow e' (List.mem_append_left _ hb)
        · rcases List.mem_cons.mp ha with rfl | ha
          · exact hf e (hbelow e (by simp))
          · exact hbelow e' (by simp [ha])
  · rw [hchange]
    cases h with
    | element names hpaths hnodup hbelow =>
      refine .element (names ++ [s]) ?_ ?_ fun e' he' => ?_
      · rw [List.map_append, List.map_append, hpaths, List.map_singleton, hpath]
        rfl
      · refine (List.nodup_append_comm.mp ?_)
        refine List.nodup_cons.mpr ⟨fun hmem => ?_, hnodup⟩
        have hmap : w ++ [s] ∈ es.map path := hpaths ▸ List.mem_map_of_mem hmem
        obtain ⟨e, he, hs⟩ := List.mem_map.mp hmap
        exact hnew e he (by rw [hs, List.getLast?_concat])
      · rcases List.mem_append.mp he' with hes | hlast
        · exact hbelow e' hes
        · rw [List.mem_singleton.mp hlast]
          exact hf _ (childless _)

/-- Inserting a chain keeps an element consistent. -/
theorem insert (h : Consistent e) (c : List Segment) : Consistent (e.insert c) := by
  induction c generalizing e with
  | nil => exact h
  | cons s rest ih => exact h.changeChild (path_insert rest) fun _ => ih

/-- The paths of an element and of what is below it continue its own. -/
lemma isPrefix_of_mem (h : Consistent e) {p : List Segment} (hp : p ∈ e.paths) : e.path <+: p := by
  induction h with
  | @element w es names hpaths hnodup hbelow ih =>
    rw [paths_element, List.mem_append, List.mem_flatMap, List.mem_singleton] at hp
    rcases hp with ⟨e, he, hp⟩ | rfl
    · obtain ⟨s, hs⟩ := (Consistent.element names hpaths hnodup hbelow).exists_path he
      exact ((List.prefix_append w [s]).trans (hs ▸ List.prefix_rfl)).trans (ih e he hp)
    · exact List.prefix_rfl

/-- A path that continues the path of a child continues that of no other segment. -/
lemma path_eq_of_isPrefix (h : Consistent (PathTree.element w es)) {e : PathTree} (he : e ∈ es)
    {s : Segment} {q : List Segment} (hq : e.path <+: q) (hs : w ++ [s] <+: q) :
    e.path = w ++ [s] := by
  obtain ⟨s', hs'⟩ := h.exists_path he
  have hlen : e.path.length = (w ++ [s]).length := by
    rw [hs', List.length_append, List.length_append]
    rfl
  exact (List.prefix_of_prefix_length_le hq hs hlen.le).eq_of_length hlen

/-- A path below one child is continued below the same child only. -/
lemma eq_of_isPrefix (h : Consistent (PathTree.element w es)) {e e' : PathTree} (he : e ∈ es)
    (he' : e' ∈ es) {p q : List Segment} (hp : p ∈ e.paths) (hq : q ∈ e'.paths) (hpq : p <+: q) :
    e = e' := by
  obtain ⟨s', hs'⟩ := h.exists_path he'
  have hle : e.path <+: q := ((h.child he).isPrefix_of_mem hp).trans hpq
  have hle' : e'.path <+: q := (h.child he').isPrefix_of_mem hq
  rw [hs'] at hle'
  exact List.inj_on_of_nodup_map h.nodup_children he he'
    ((h.path_eq_of_isPrefix he hle hle').trans hs'.symm)

/-- No path below a child is the path of the element or one that the path of the element continues. -/
lemma not_isPrefix (h : Consistent (PathTree.element w es)) {e : PathTree} (he : e ∈ es)
    {p : List Segment} (hp : p ∈ e.paths) : ¬ p <+: w := by
  intro hpw
  obtain ⟨s, hs⟩ := h.exists_path he
  have hlen := (((h.child he).isPrefix_of_mem hp).trans hpw).length_le
  rw [hs, List.length_append, List.length_singleton] at hlen
  omega

/-- No path is listed before one that it is or that continues it. -/
theorem pairwise_paths (h : Consistent e) : e.paths.Pairwise fun p q => ¬ p <+: q := by
  induction h with
  | @element w es names hpaths hnodup hbelow ih =>
    have h : Consistent (PathTree.element w es) := .element names hpaths hnodup hbelow
    rw [paths_element, List.pairwise_append, List.pairwise_flatMap]
    refine ⟨⟨ih, ?_⟩, List.pairwise_singleton _ _, ?_⟩
    · refine (List.pairwise_map.mp h.nodup_children).imp_of_mem ?_
      intro e e' he he' hne p hp q hq hpq
      exact hne (congrArg path (h.eq_of_isPrefix he he' hp hq hpq))
    · intro p hp q hq
      obtain ⟨e, he, hp⟩ := List.mem_flatMap.mp hp
      rw [List.mem_singleton.mp hq]
      exact h.not_isPrefix he hp

/-- A consistent element has no path twice. -/
lemma nodup_paths (h : Consistent e) : e.paths.Nodup :=
  h.pairwise_paths.imp fun hpq => mt (fun heq => heq ▸ List.prefix_rfl) hpq

/-- The leaves are the paths that no other path continues. -/
theorem leaves_eq (h : Consistent e) :
    e.leaves = e.paths.filter fun p => ∀ q ∈ e.paths, p <+: q → q = p := by
  induction h with
  | @element w es names hpaths hnodup hbelow ih =>
    have h : Consistent (PathTree.element w es) := .element names hpaths hnodup hbelow
    cases es with
    | nil => simp [leaves, paths, pathsOf]
    | cons e₀ rest =>
      have hroot : ¬ ∀ q ∈ (PathTree.element w (e₀ :: rest)).paths, w <+: q → q = w := by
        intro hall
        have hmem := path_mem_paths e₀
        have hpre : w <+: e₀.path := by
          obtain ⟨s, hs⟩ := h.exists_path List.mem_cons_self
          exact hs ▸ List.prefix_append w [s]
        have heq := hall e₀.path (by simp [paths_element, hmem]) hpre
        exact h.not_isPrefix List.mem_cons_self hmem (heq ▸ List.prefix_rfl)
      rw [leaves, leavesOf_eq, paths_element, List.filter_append, List.filter_flatMap,
        List.filter_cons, if_neg (by simpa [paths_element] using hroot), List.filter_nil,
        List.append_nil]
      refine List.flatMap_congr fun e he => ?_
      rw [ih e he]
      refine List.filter_congr fun p hp => decide_eq_decide.mpr ?_
      constructor
      · intro hall q hq hpq
        rcases List.mem_append.mp hq with hq | hq
        · obtain ⟨e', he', hq⟩ := List.mem_flatMap.mp hq
          obtain rfl := h.eq_of_isPrefix he he' hp hq hpq
          exact hall q hq hpq
        · rw [List.mem_singleton.mp hq] at hpq
          exact absurd hpq (h.not_isPrefix he hp)
      · intro hall q hq hpq
        exact hall q (List.mem_append_left _ (List.mem_flatMap.mpr ⟨e, he, hq⟩)) hpq

/-! ### Elements at paths -/

/-- The element that a segment leads to is the child whose path ends in it. -/
lemma find?_singleton_eq_some_iff (h : Consistent (PathTree.element w es)) {s : Segment} :
    (PathTree.element w es).find? [s] = some e ↔ e ∈ es ∧ e.path = w ++ [s] := by
  rw [find?_singleton]
  constructor
  · intro he
    have hmem : e ∈ es := List.mem_of_find?_eq_some he
    exact ⟨hmem, (h.path_eq_iff hmem).mp (getLast?_of_find? he)⟩
  · rintro ⟨hmem, hpath⟩
    obtain ⟨e', he'⟩ : ∃ e', es.find? (·.path.getLast? == some s) = some e' :=
      Option.isSome_iff_exists.mp (List.find?_isSome.mpr
        ⟨e, hmem, beq_iff_eq.mpr ((h.path_eq_iff hmem).mpr hpath)⟩)
    have hmem' : e' ∈ es := List.mem_of_find?_eq_some he'
    have hpath' : e'.path = w ++ [s] := (h.path_eq_iff hmem').mp (getLast?_of_find? he')
    rw [he', List.inj_on_of_nodup_map h.nodup_children hmem' hmem (hpath'.trans hpath.symm)]

/-- The element that segments lead to holds the path of the root and these segments. -/
theorem path_find? (h : Consistent e) {p : List Segment} {u : PathTree} (hu : e.find? p = some u) :
    Consistent u ∧ u.path = e.path ++ p := by
  induction p generalizing e with
  | nil =>
    obtain rfl : e = u := Option.some.inj hu
    exact ⟨h, (List.append_nil _).symm⟩
  | cons s p ih =>
    obtain ⟨w, es⟩ := e
    rw [find?_cons] at hu
    obtain ⟨e, he, hu⟩ := Option.bind_eq_some_iff.mp hu
    obtain ⟨hmem, hpath⟩ := h.find?_singleton_eq_some_iff.mp he
    obtain ⟨hconsistent, hu⟩ := ih (h.child hmem) hu
    exact ⟨hconsistent, by rw [hu, hpath, List.append_assoc, List.singleton_append, path]⟩

/-- The listed paths are those at which there is an element. -/
theorem mem_paths_iff (h : Consistent e) {p : List Segment} :
    e.path ++ p ∈ e.paths ↔ ∃ u, e.find? p = some u := by
  induction p generalizing e with
  | nil => exact ⟨fun _ => ⟨e, rfl⟩, fun _ => (List.append_nil e.path).symm ▸ path_mem_paths e⟩
  | cons s p ih =>
    obtain ⟨w, es⟩ := e
    have hsegments : w ++ s :: p = w ++ [s] ++ p := (List.append_assoc w [s] p).symm
    have hne : w ++ [s] ++ p ≠ w := fun heq => by simpa using congrArg List.length heq
    rw [find?_cons, path, paths_element, hsegments, List.mem_append, List.mem_singleton,
      or_iff_left hne, List.mem_flatMap]
    simp only [Option.bind_eq_some_iff, h.find?_singleton_eq_some_iff]
    constructor
    · rintro ⟨e, he, hmem⟩
      have hpath : e.path = w ++ [s] :=
        h.path_eq_of_isPrefix he ((h.child he).isPrefix_of_mem hmem) (List.prefix_append _ p)
      obtain ⟨u, hu⟩ := (ih (h.child he)).mp (hpath.symm ▸ hmem)
      exact ⟨u, e, ⟨he, hpath⟩, hu⟩
    · rintro ⟨u, e, ⟨he, hpath⟩, hu⟩
      exact ⟨e, he, hpath ▸ (ih (h.child he)).mpr ⟨u, hu⟩⟩

end Consistent

/-! ### One more chain -/

/-- The segments that lead to the children of an element. -/
def names (e : PathTree) : List Segment := e.children.filterMap (·.path.getLast?)

/-- The segments that lead to the children of the element at a path, if there is one. -/
def namesAt (p : List Segment) (e : PathTree) : Option (List Segment) := (e.find? p).map names

/-- The segment that a chain goes on with after a path. -/
def next? (p chain : List Segment) : Option Segment :=
  if p <+: chain then (chain.drop p.length).head? else none

/-- Segments in the order of their first mention, after one more mention. -/
def mention (names : List Segment) : Option Segment → List Segment
  | none => names
  | some s => if s ∈ names then names else names ++ [s]

/-- The paths of the children extend that of the element by its names. -/
lemma Consistent.map_path_children {e : PathTree} (h : Consistent e) :
    e.children.map path = e.names.map fun s => e.path ++ [s] := by
  cases h with
  | @element w es ss hpaths hnodup hbelow =>
    have hnames : (PathTree.element w es).names = ss := by
      have hlast : (fun e : PathTree => e.path.getLast?) = List.getLast? ∘ path := rfl
      rw [names, children, hlast, ← List.filterMap_map, hpaths, List.filterMap_map]
      simp [Function.comp_def]
    rw [hnames]
    exact hpaths

/-- Changing a child mentions its name, at the end if it is new. -/
lemma names_changeChild {s : Segment} {f : PathTree → PathTree} (hpath : ∀ e, (f e).path = e.path)
    (e : PathTree) : (e.changeChild s f).names = mention e.names (some s) := by
  obtain ⟨w, es⟩ := e
  rw [changeChild, names, names, children, children, mention]
  rcases changeAmong_cases w s f es with
    ⟨before, e, after, rfl, he, -, hchange⟩ | ⟨hnew, hchange⟩
  · have hmem : s ∈ (before ++ e :: after).filterMap (·.path.getLast?) :=
      List.mem_filterMap.mpr ⟨e, by simp, he⟩
    rw [hchange, if_pos hmem, List.filterMap_append, List.filterMap_append, List.filterMap_cons,
      List.filterMap_cons, hpath]
  · have hmem : s ∉ es.filterMap (·.path.getLast?) := by
      intro hmem
      obtain ⟨e, he, hs⟩ := List.mem_filterMap.mp hmem
      exact hnew e he hs
    have hcreated : (f (element (w ++ [s]) [])).path.getLast? = some s := by
      rw [hpath, path, List.getLast?_concat]
    rw [hchange, if_neg hmem, List.filterMap_append,
      List.filterMap_cons_some (f := fun e : PathTree => e.path.getLast?) hcreated,
      List.filterMap_nil]

/-- Under its own segment a changed child is found as it has become, and the others are found unchanged. -/
lemma find?_changeChild {s s' : Segment} {f : PathTree → PathTree}
    (hpath : ∀ e, (f e).path = e.path) (e : PathTree) :
    (e.changeChild s f).find? [s'] = if s' = s then
      some (f ((e.find? [s]).getD (element (e.path ++ [s]) []))) else e.find? [s'] := by
  obtain ⟨w, es⟩ := e
  rw [changeChild, find?_singleton, find?_singleton, find?_singleton, path]
  rcases changeAmong_cases w s f es with
    ⟨before, e, after, rfl, he, hbefore, hchange⟩ | ⟨hnew, hchange⟩
  · have hskip : before.find? (·.path.getLast? == some s) = none :=
      List.find?_eq_none.mpr fun e' he' => by simpa using hbefore e' he'
    rw [hchange, List.find?_append, List.find?_append, List.find?_append, hskip, List.find?_cons,
      List.find?_cons, List.find?_cons, hpath, he]
    by_cases hs : s' = s
    · subst hs
      simp [hskip]
    · have hother : (some s == some s') = false := by simpa using Ne.symm hs
      rw [if_neg hs, hother]
  · have hnone : es.find? (·.path.getLast? == some s) = none :=
      List.find?_eq_none.mpr fun e he => by simpa using hnew e he
    rw [hchange, List.find?_append, hnone, Option.getD_none, List.find?_singleton, hpath, path,
      List.getLast?_concat]
    by_cases hs : s' = s
    · subst hs
      simp [hnone]
    · have hother : (some s == some s') = false := by simpa using Ne.symm hs
      rw [if_neg hs, hother]
      simp

/-- The names at a path are found one segment at a time. -/
lemma namesAt_cons (s : Segment) (p : List Segment) (e : PathTree) :
    namesAt (s :: p) e = (e.find? [s]).bind (namesAt p) := by
  rw [namesAt, find?_cons, Option.map_bind]
  rfl

/-- Below a new element there is nothing. -/
lemma getD_namesAt_childless (p w : List Segment) : (namesAt p (element w [])).getD [] = [] := by
  cases p <;> rfl

/-- A chain mentions its next segment at every path that it passes, and changes nothing elsewhere. -/
theorem namesAt_insert (p chain : List Segment) (e : PathTree) : namesAt p (e.insert chain)
    = if p <+: chain then some (mention ((namesAt p e).getD []) (next? p chain))
      else namesAt p e := by
  induction chain generalizing p e with
  | nil => cases p <;> simp [insert, namesAt, find?, next?, mention]
  | cons s chain ih =>
    cases p with
    | nil => simp [insert, namesAt, find?, next?, names_changeChild (path_insert chain)]
    | cons s' p =>
      rw [insert, namesAt_cons, find?_changeChild (path_insert chain)]
      by_cases hs : s' = s
      · subst hs
        have hnext : next? (s' :: p) (s' :: chain) = next? p chain := by
          simp [next?, List.cons_prefix_cons]
        rw [if_pos rfl, Option.bind_some, ih, hnext, namesAt_cons]
        simp only [List.cons_prefix_cons, true_and]
        cases e.find? [s'] with
        | some e' => rfl
        | none =>
          rw [Option.getD_none, Option.bind_none, getD_namesAt_childless, Option.getD_none]
          by_cases hp : p <+: chain
          · rw [if_pos hp, if_pos hp]
          · have hne : p ≠ [] := fun hnil => hp (hnil ▸ List.nil_prefix)
            obtain ⟨s, p, rfl⟩ := List.ne_nil_iff_exists_cons.mp hne
            rw [if_neg hp, if_neg hp]
            rfl
      · have hno : ¬ s' :: p <+: s :: chain := fun h => hs (List.cons_prefix_cons.mp h).1
        rw [if_neg hs, if_neg hno, namesAt_cons]

/-- A chain that is recorded already changes nothing. -/
theorem insert_of_find? {chain : List Segment} {e u : PathTree} (h : e.find? chain = some u) :
    e.insert chain = e := by
  induction chain generalizing e with
  | nil => rfl
  | cons s chain ih =>
    obtain ⟨w, es⟩ := e
    rw [find?_cons, find?_singleton] at h
    obtain ⟨e, he, hu⟩ := Option.bind_eq_some_iff.mp h
    rw [insert, changeChild]
    rcases changeAmong_cases w s (insert chain) es with
      ⟨before, e', after, rfl, he', hbefore, hchange⟩ | ⟨hnew, -⟩
    · have hskip : before.find? (·.path.getLast? == some s) = none :=
        List.find?_eq_none.mpr fun e' he' => by simpa using hbefore e' he'
      obtain rfl : e' = e := by simpa [List.find?_append, hskip, he'] using he
      rw [hchange, ih hu]
    · exact absurd (getLast?_of_find? he) (hnew e (List.mem_of_find?_eq_some he))

/-! ### Sequences of chains -/

/-- The tree that a sequence of chains makes of the tree that holds the root path only. -/
def ofChains (chains : List (List Segment)) : PathTree :=
  chains.foldl (fun e chain => e.insert chain) empty

/-- One more chain is inserted into the tree of those before. -/
lemma ofChains_concat (chains : List (List Segment)) (chain : List Segment) :
    ofChains (chains ++ [chain]) = (ofChains chains).insert chain := List.foldl_append

/-- The tree of chains begins at the root. -/
lemma path_ofChains (chains : List (List Segment)) : (ofChains chains).path = [] := by
  induction chains using List.reverseRecOn with
  | nil => rfl
  | append_singleton chains chain ih => rw [ofChains_concat, path_insert, ih]

/-- The tree of chains is consistent. -/
lemma consistent_ofChains (chains : List (List Segment)) : (ofChains chains).Consistent := by
  induction chains using List.reverseRecOn with
  | nil => exact .childless []
  | append_singleton chains chain ih =>
    rw [ofChains_concat]
    exact ih.insert chain

/-- At the root and at every path that a chain passes, the children stand in the order in which the chains
first go on to them. -/
theorem namesAt_ofChains (p : List Segment) (chains : List (List Segment)) :
    namesAt p (ofChains chains) = if p = [] ∨ ∃ chain ∈ chains, p <+: chain then
      some (chains.filterMap (next? p)).eraseDups else none := by
  induction chains using List.reverseRecOn with
  | nil => cases p <;> simp [ofChains, empty, namesAt, find?, names, children]
  | append_singleton chains chain ih =>
    have hmention : mention (chains.filterMap (next? p)).eraseDups (next? p chain)
        = ((chains ++ [chain]).filterMap (next? p)).eraseDups := by
      rw [List.filterMap_append]
      cases hnext : next? p chain with
      | none => rw [List.filterMap_cons_none hnext, List.filterMap_nil, List.append_nil, mention]
      | some s =>
        rw [List.filterMap_cons_some hnext, List.filterMap_nil, eraseDups_concat, mention]
        simp only [List.mem_eraseDups]
    rw [ofChains_concat, namesAt_insert, ih, ← hmention]
    by_cases hp : p <+: chain
    · have hpassed : p = [] ∨ ∃ chain' ∈ chains ++ [chain], p <+: chain' :=
        .inr ⟨chain, by simp, hp⟩
      rw [if_pos hp, if_pos hpassed]
      split
      · rfl
      · next hnew =>
        have hnone : chains.filterMap (next? p) = [] := List.filterMap_eq_nil_iff.mpr
          fun chain' hmem => if_neg fun h => hnew (.inr ⟨chain', hmem, h⟩)
        rw [hnone]
        rfl
    · have hnext : next? p chain = none := if_neg hp
      have hpassed : (∃ chain' ∈ chains ++ [chain], p <+: chain') ↔ ∃ chain' ∈ chains, p <+: chain' := by
        simp [hp]
      simp only [if_neg hp, hnext, mention, hpassed]

/-- The recorded paths are the prefixes of the chains. -/
theorem mem_paths_ofChains_iff {chains : List (List Segment)} {p : List Segment} :
    p ∈ (ofChains chains).paths ↔ p = [] ∨ ∃ chain ∈ chains, p <+: chain := by
  have h := (consistent_ofChains chains).mem_paths_iff (p := p)
  rw [path_ofChains, List.nil_append, ← Option.isSome_iff_exists, ← Option.isSome_map (f := names),
    ← namesAt, namesAt_ofChains] at h
  rw [h]
  split <;> simp_all

/-- **The tree of a sequence of chains is the tree of their prefixes.**  It records every prefix of a chain
once, after all prefixes that continue it; the element at a path holds that path, and its children stand in
the order in which the chains first go on to them; its leaves are the prefixes that no other one continues;
and one of the chains again changes nothing. -/
theorem ofChains_prefix_tree (chains : List (List Segment)) :
    (∀ p, p ∈ (ofChains chains).paths ↔ p = [] ∨ ∃ chain ∈ chains, p <+: chain) ∧
    (ofChains chains).paths.Nodup ∧
    (∀ p, p ∈ (ofChains chains).paths ↔ ∃ e, (ofChains chains).find? p = some e) ∧
    (∀ p e, (ofChains chains).find? p = some e → e.path = p ∧
      e.children.map path = (chains.filterMap (next? p)).eraseDups.map fun s => p ++ [s]) ∧
    (ofChains chains).paths.Pairwise (fun p q => ¬ p <+: q) ∧
    (ofChains chains).leaves
      = (ofChains chains).paths.filter (fun p => ∀ q ∈ (ofChains chains).paths, p <+: q → q = p) ∧
    (ofChains chains).size = ([] :: chains.flatMap List.inits).toFinset.card ∧
    ∀ chain ∈ chains, (ofChains chains).insert chain = ofChains chains := by
  have hc := consistent_ofChains chains
  have hfound (p : List Segment) :
      p ∈ (ofChains chains).paths ↔ ∃ e, (ofChains chains).find? p = some e := by
    rw [← hc.mem_paths_iff, path_ofChains, List.nil_append]
  refine ⟨fun p => mem_paths_ofChains_iff, hc.nodup_paths, hfound, fun p e he => ?_,
    hc.pairwise_paths, hc.leaves_eq, ?_, fun chain hchain => ?_⟩
  · obtain ⟨hconsistent, hpath⟩ := hc.path_find? he
    rw [path_ofChains, List.nil_append] at hpath
    have hnames : namesAt p (ofChains chains) = some e.names := by rw [namesAt, he, Option.map_some]
    rw [namesAt_ofChains, if_pos (mem_paths_ofChains_iff.mp ((hfound p).mpr ⟨e, he⟩))] at hnames
    rw [hconsistent.map_path_children, hpath, Option.some.inj hnames]
    exact ⟨rfl, rfl⟩
  · rw [size, ← List.toFinset_card_of_nodup hc.nodup_paths]
    congr 1
    ext p
    simp [mem_paths_ofChains_iff]
  · have hmem : chain ∈ (ofChains chains).paths :=
      mem_paths_ofChains_iff.mpr (.inr ⟨chain, hchain, List.prefix_rfl⟩)
    obtain ⟨e, he⟩ := (hfound chain).mp hmem
    exact insert_of_find? he

end PathTree

end DocumentPath
