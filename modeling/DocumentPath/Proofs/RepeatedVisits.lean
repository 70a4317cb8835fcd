import Mathlib
import DocumentPath.Proofs.SharedElements
import DocumentPath.Proofs.ThinnedTrees

/-!
# Removals that take more than matches

With two descents a node is visited once for every way in which the path leads to it.  If the path ends
at an index of an array, each visit takes what then stands there, so the second visit takes an element
that stood behind the match.

The visits are counted by `Stage.ways` on a chain of maps that ends in an array of values
(`Tree.nest`): `returns_nest` says that the removal takes as many elements as there are ways, from the
index on.  For every path with two descents there are two ways along `Stage.detour` (`two_le_ways`), and so
a tree from which more than the matches is taken (`exists_takes_other`).
`Selector.removesMatches_of_compile` puts this beside the paths that take matches only.
-/

namespace DocumentPath

open Selector (stagesOf)

namespace Stage

/-! ### Ways to the end of a nest -/

/-- The ways from a location or from one that it leads through. -/
def downWays (f : List Segment → ℕ) : List Segment → ℕ
  | [] => f []
  | s :: w => f (s :: w) + downWays f w

/-- The number of ways in which a path takes all of a list of segments. -/
def ways : List Step → List Segment → ℕ
  | [], w => if w = [] then 1 else 0
  | .key _ :: _, [] => 0
  | .key s :: path, s' :: w => if s' = s then ways path w else 0
  | .wildcard :: _, [] => 0
  | .wildcard :: path, _ :: w => ways path w
  | .descent :: path, w => downWays (ways path) w

/-- The ways from a location that is led through are counted. -/
lemma le_downWays (f : List Segment → ℕ) (u w : List Segment) : f w ≤ downWays f (u ++ w) := by
  induction u with
  | nil =>
    cases w with
    | nil => exact le_rfl
    | cons s w => exact Nat.le_add_right _ _
  | cons s u ih => exact ih.trans (Nat.le_add_left _ _)

/-- Every way from where a first part of the path leads is a way of the path. -/
lemma le_ways_append (path path' : List Step) (w : List Segment) :
    ways path' w ≤ ways (path ++ path') (path.flatMap Step.taken ++ w) := by
  induction path with
  | nil => exact le_rfl
  | cons step path ih =>
    rw [List.cons_append, List.flatMap_cons, List.append_assoc]
    cases step with
    | key s => simpa [Step.taken, ways] using ih
    | wildcard => simpa [Step.taken, ways] using ih
    | descent => exact ih.trans (le_downWays (ways (path ++ path')) [] _)

/-- The segments that the steps of a path take are taken in at least one way. -/
lemma one_le_ways (path : List Step) : 1 ≤ ways path (path.flatMap Step.taken) := by
  have h := le_ways_append path [] []
  rwa [List.append_nil, List.append_nil] at h

/-- A location for a path with `mid` between two descents and `path` after them: what `mid` takes stands
in it twice, so that the second descent may start after either. -/
def detour (mid path : List Step) : List Segment :=
  mid.flatMap Step.taken ++ ⟨"k"⟩ :: (mid.flatMap Step.taken ++ path.flatMap Step.taken)

/-- Two descents have two ways to the same location. -/
theorem two_le_ways (mid path : List Step) :
    2 ≤ ways (.descent :: (mid ++ .descent :: path)) (detour mid path) := by
  rw [detour]
  set b := mid.flatMap Step.taken with hb
  set c := path.flatMap Step.taken with hc
  have hway : ∀ u, 1 ≤ ways (mid ++ .descent :: path) (b ++ (u ++ c)) := fun u =>
    (one_le_ways path).trans ((le_downWays (ways path) u c).trans
      (le_ways_append mid (.descent :: path) (u ++ c)))
  have hsplit : ∃ s u, b ++ ⟨"k"⟩ :: (b ++ c) = s :: (u ++ (b ++ c)) := by
    cases b with
    | nil => exact ⟨⟨"k"⟩, [], rfl⟩
    | cons s b => exact ⟨s, b ++ [⟨"k"⟩], by simp⟩
  have hfirst : 1 ≤ ways (mid ++ .descent :: path) (b ++ ⟨"k"⟩ :: (b ++ c)) := hway (⟨"k"⟩ :: b)
  obtain ⟨s, u, hu⟩ := hsplit
  have hsecond : 1 ≤ downWays (ways (mid ++ .descent :: path)) (u ++ (b ++ c)) :=
    (hway []).trans (le_downWays _ u (b ++ c))
  rw [hu] at hfirst ⊢
  exact Nat.add_le_add hfirst hsecond

/-- A key that names an index and is none of the path's is not on the detour. -/
lemma notMem_detour {k : Segment} {i : ℕ} (hk : k.index? = some i) {mid path : List Step}
    (hkeys : .key k ∉ mid ++ path) : k ∉ detour mid path := by
  have hletter : k ≠ ⟨"k"⟩ := by
    rintro rfl
    have hplain : (⟨"k"⟩ : Segment).index? = none := by decide
    exact absurd (hplain.symm.trans hk) (by simp)
  have htaken : ∀ l : List Step, .key k ∉ l → k ∉ l.flatMap Step.taken := by
    intro l hl hmem
    obtain ⟨step, hstep, hmem⟩ := List.mem_flatMap.mp hmem
    cases step with
    | key s => exact hl (List.mem_singleton.mp hmem ▸ hstep)
    | wildcard => exact hletter (List.mem_singleton.mp hmem)
    | descent => exact absurd hmem List.not_mem_nil
  have hmid := htaken mid fun h => hkeys (List.mem_append_left _ h)
  have hpath := htaken path fun h => hkeys (List.mem_append_right _ h)
  simp only [detour, List.mem_append, List.mem_cons, not_or]
  exact ⟨hmid, hletter, hmid, hpath⟩

end Stage

namespace Tree

/-- A tree nested twice is nested along both paths. -/
lemma nest_append (p q : List Segment) (t : Tree) : nest (p ++ q) t = nest p (nest q t) := by
  induction p with
  | nil => rfl
  | cons s p ih => rw [List.cons_append, nest, ih, nest]

/-- A nested tree is at least as high as its path is long. -/
lemma length_le_height_nest (w : List Segment) (t : Tree) : w.length ≤ (nest w t).height := by
  induction w with
  | nil => exact Nat.zero_le _
  | cons s w ih =>
    rw [nest, height, heightFields, heightFields, List.length_cons]
    omega

/-- A nested tree has no other child than the first of its path. -/
lemma child?_nest_of_ne {s s' : Segment} (h : s ≠ s') (w : List Segment) (t : Tree) :
    (nest (s' :: w) t).child? s = none := by
  have hkey : s'.key ≠ s.key := fun heq => h (congrArg Segment.mk heq).symm
  simp [nest, child?, field?, Entries.get?, hkey]

/-- Putting a child into a nested tree replaces all of it. -/
lemma putChild_nest (s : Segment) (w : List Segment) (t v : Tree) :
    (nest (s :: w) t).putChild s v = .map [(s.key, v)] := by
  simp [nest, putChild, Entries.replace]

/-! ### The row at the end of a nest -/

/-- Nulls up to the index `i`, and behind them an element that differs. -/
def row (i : ℕ) : List Tree := List.replicate (i + 1) .null ++ [.bool true]

/-- The last items of a row are null and a boolean. -/
lemma drop_row (i : ℕ) : (row i).drop i = [.null, .bool true] := by
  rw [row, List.replicate_succ', List.append_assoc]
  exact List.drop_left' List.length_replicate

/-- Before its last item a row has null. -/
lemma getElem?_row (i : ℕ) : (row i)[i]? = some .null := by
  rw [row, List.getElem?_append_left (by simp), List.getElem?_replicate, if_pos (Nat.lt_succ_self i)]

/-- All items of a row are null or the boolean. -/
lemma eq_of_mem_row {i : ℕ} {x : Tree} (hx : x ∈ row i) : x = .null ∨ x = .bool true := by
  rcases List.mem_append.mp hx with hx | hx
  · exact .inl (List.eq_of_mem_replicate hx)
  · exact .inr (List.mem_singleton.mp hx)

/-- No item of a row has children. -/
lemma children_of_mem_row {i : ℕ} {x : Tree} (hx : x ∈ row i) : x.children = [] := by
  rcases eq_of_mem_row hx with rfl | rfl <;> rfl

/-- A row that fits the range of indexes is well-formed. -/
lemma wellFormed_row {i : ℕ} (hi : i + 1 < Segment.indexBound) : (array (row i)).WellFormed := by
  rw [wellFormed_iff]
  refine ⟨?_, fun x hx => ?_⟩
  · change (row i).length ≤ Segment.indexBound
    rw [row, List.length_append, List.length_replicate, List.length_singleton]
    omega
  · rcases eq_of_mem_row hx with rfl | rfl <;> simp [WellFormed, nodes, Sound]

end Tree

/-! ### What is left of a row -/

/-- A list without `n` of its elements from index `i` on. -/
def closedUp {α : Type*} (i n : ℕ) (xs : List α) : List α := xs.take i ++ xs.drop (i + n)

section ClosedUp

variable {α : Type*} (i n : ℕ) (xs : List α)

/-- Before a gap that closes up nothing changes. -/
lemma take_closedUp : (closedUp i n xs).take i = xs.take i := by
  rw [closedUp]
  rcases le_total i xs.length with h | h
  · exact List.take_left' (List.length_take_of_le h)
  · rw [List.drop_eq_nil_of_le (by omega), List.append_nil, List.take_take, min_self]

/-- Behind a gap that closes up everything moves up by its width. -/
lemma drop_closedUp (m : ℕ) : (closedUp i n xs).drop (i + m) = xs.drop (i + n + m) := by
  have hfirst : (xs.take i ++ xs.drop (i + n)).drop i = xs.drop (i + n) := by
    rcases le_total i xs.length with h | h
    · exact List.drop_left' (List.length_take_of_le h)
    · have hnone : xs.drop (i + n) = [] := List.drop_eq_nil_of_le (by omega)
      rw [hnone, List.append_nil, List.drop_eq_nil_of_le (List.length_take_le i xs)]
  rw [closedUp, ← List.drop_drop, hfirst, List.drop_drop]

/-- Closing up twice is closing up once. -/
lemma closedUp_closedUp (m : ℕ) : closedUp i m (closedUp i n xs) = closedUp i (n + m) xs := by
  rw [closedUp, take_closedUp, drop_closedUp, closedUp, Nat.add_assoc]

/-- What stands in a gap and what then moves up into it stood side by side. -/
lemma take_drop_closedUp (m : ℕ) :
    (xs.drop i).take n ++ ((closedUp i n xs).drop i).take m = (xs.drop i).take (n + m) := by
  have hdrop := drop_closedUp i n xs 0
  rw [Nat.add_zero, Nat.add_zero] at hdrop
  rw [hdrop, List.take_add, List.drop_drop]

/-- A gap of no width changes nothing. -/
lemma closedUp_zero : closedUp i 0 xs = xs := List.take_append_drop i xs

/-- A gap of one item is the removal of the item. -/
lemma closedUp_one : closedUp i 1 xs = xs.eraseIdx i := (List.eraseIdx_eq_take_drop_succ xs i).symm

/-- What is left when a gap closes up was there before. -/
lemma mem_of_mem_closedUp {i n : ℕ} {xs : List α} {x : α} (h : x ∈ closedUp i n xs) : x ∈ xs :=
  (List.mem_append.mp h).elim List.mem_of_mem_take List.mem_of_mem_drop

end ClosedUp

namespace Removal

open Run (Returns)
open Stage (ways downWays)
open DocumentPath.Tree (nest)

variable {k : Segment} {i : ℕ}

/-! ### Removing from a nest -/

/-- A removal that takes nothing from any child takes nothing from all of them. -/
lemma returns_fromChildren_none {f : Tree → Run Removal} {t : Tree}
    (h : ∀ c ∈ t.children, Returns (f c) (none c)) : Returns (fromChildren f t) (none t) := by
  have hreturns := returns_fromChildren h
  rw [show (fun c => (none c).tree) = fun c => c from rfl, Tree.mapChildren_id] at hreturns
  have hnothing : (t.children.flatMap fun c => (none c).removed) = [] :=
    List.flatMap_eq_nil_iff.mpr fun _ _ => rfl
  rwa [hnothing] at hreturns

/-- A removal that takes nothing from a node without children takes nothing from it downwards. -/
lemma returns_downwards_none {f : Tree → Run Removal} {t : Tree} (ht : t.children = [])
    (h : Returns (f t) (none t)) (depth : ℕ) : Returns (downwards f depth t) (none t) := by
  cases depth with
  | zero => exact h
  | succ depth =>
    exact returns_downwards_succ h
      (returns_fromChildren_none fun c hc => absurd (ht ▸ hc) List.not_mem_nil)

/-- A nest has one child. -/
lemma returns_fromChildren_nest {f : Tree → Run Removal} {s : Segment} {w : List Segment} {t : Tree}
    {r : Removal} (h : Returns (f (nest w t)) r) :
    Returns (fromChildren f (nest (s :: w) t)) ⟨r.removed, .map [(s.key, r.tree)]⟩ := by
  have hchildren : (nest (s :: w) t).children = [nest w t] := rfl
  have hreturns := returns_fromChildren (f := f) (g := fun _ => r) (t := nest (s :: w) t)
    fun c hc => (List.mem_singleton.mp (hchildren ▸ hc)) ▸ h
  rwa [hchildren, List.flatMap_singleton] at hreturns

/-- A node without children has nothing to remove. -/
lemma returns_of_childless (k : Segment) (path : List Step) {t : Tree} (ht : t.children = []) :
    Returns (ofStages (stagesOf (path ++ [.key k])) t) (none t) := by
  have htake : t.takeChild? k = .none := Tree.takeChild?_eq_none_iff.mpr (Tree.child?_of_childless ht k)
  induction path with
  | nil =>
    rw [← ofPointer_eq_none htake]
    exact Run.returns_pure _
  | cons step path ih =>
    have hne : stagesOf (path ++ [.key k]) ≠ [.terminal] := Stage.stagesOf_ne_terminal (by simp)
    cases step with
    | key s =>
      rw [List.cons_append, ofStages_stagesOf_key_of_none (Tree.child?_of_childless ht s)]
      exact Run.returns_pure _
    | wildcard =>
      rw [List.cons_append, stagesOf, ofStages_wildcard hne]
      exact returns_fromChildren_none fun c hc => absurd (ht ▸ hc) List.not_mem_nil
    | descent =>
      rw [List.cons_append, stagesOf, ofStages_descent hne]
      exact returns_downwards_none ht ih t.height

/-- Going downwards takes from the array at the end of a nest what each visit takes, one after another. -/
lemma returns_downwards_nest {f : Tree → Run Removal} {g : List Segment → ℕ}
    (hvalue : ∀ t : Tree, t.children = [] → Returns (f t) (none t))
    (hnest : ∀ w, k ∉ w → ∀ xs : List Tree, (∀ x ∈ xs, x.children = []) →
      Returns (f (nest w (.array xs))) ⟨(xs.drop i).take (g w), nest w (.array (closedUp i (g w) xs))⟩)
    {w : List Segment} (hw : k ∉ w) {depth : ℕ} (hdepth : w.length ≤ depth) {xs : List Tree}
    (hxs : ∀ x ∈ xs, x.children = []) : Returns (downwards f depth (nest w (.array xs)))
      ⟨(xs.drop i).take (downWays g w), nest w (.array (closedUp i (downWays g w) xs))⟩ := by
  have hleft : ∀ n, ∀ x ∈ closedUp i n xs, x.children = [] := fun n x hx =>
    hxs x (mem_of_mem_closedUp hx)
  induction w generalizing depth xs with
  | nil =>
    cases depth with
    | zero => exact hnest [] hw xs hxs
    | succ depth =>
      have hreturns := returns_downwards_succ (hnest [] hw xs hxs)
        (returns_fromChildren_none fun c hc =>
          returns_downwards_none (hleft _ c hc) (hvalue c (hleft _ c hc)) depth)
      rwa [none, List.append_nil] at hreturns
  | cons s w ih =>
    obtain ⟨depth, rfl⟩ : ∃ d, depth = d + 1 := ⟨depth - 1, by rw [List.length_cons] at hdepth; omega⟩
    have hbelow := ih (fun h => hw (List.mem_cons_of_mem _ h)) (Nat.le_of_succ_le_succ hdepth)
      (hleft (g (s :: w))) fun n x hx => hleft _ x (mem_of_mem_closedUp hx)
    have hreturns := returns_downwards_succ (hnest (s :: w) hw xs hxs)
      (returns_fromChildren_nest hbelow)
    rw [take_drop_closedUp, closedUp_closedUp] at hreturns
    exact hreturns

/-- The last key takes an element from an array that it is removed from, and nothing from a nest above. -/
lemma returns_key_nest (hk : k.index? = some i) {w : List Segment} (hw : k ∉ w) (xs : List Tree) :
    Returns (ofStages (stagesOf [.key k]) (nest w (.array xs)))
      ⟨(xs.drop i).take (ways [] w), nest w (.array (closedUp i (ways [] w) xs))⟩ := by
  change Returns (pure (ofPointer ⟨[k]⟩ (nest w (.array xs)))) _
  cases w with
  | nil =>
    have hchild : (Tree.array xs).takeChild? k = xs[i]?.map (·, .array (xs.eraseIdx i)) := by
      rw [Tree.takeChild?, hk, Option.bind_some, Tree.takeElement?]
    rw [ways, if_pos rfl, closedUp_one, nest]
    cases hget : xs[i]? with
    | none =>
      rw [hget, Option.map_none] at hchild
      have hle : xs.length ≤ i := List.getElem?_eq_none_iff.mp hget
      rw [ofPointer_eq_none hchild, List.drop_eq_nil_of_le hle, List.eraseIdx_of_length_le hle]
      exact Run.returns_pure _
    | some x =>
      rw [hget, Option.map_some] at hchild
      obtain ⟨hi, rfl⟩ := List.getElem?_eq_some_iff.mp hget
      rw [ofPointer_eq hchild, List.drop_eq_getElem_cons hi]
      exact Run.returns_pure _
  | cons s w =>
    have hs : k ≠ s := fun h => hw (h ▸ List.mem_cons_self)
    have htake : (nest (s :: w) (.array xs)).takeChild? k = .none :=
      Tree.takeChild?_eq_none_iff.mpr (Tree.child?_nest_of_ne hs w _)
    rw [ways, if_neg (List.cons_ne_nil s w), closedUp_zero, ofPointer_eq_none htake]
    exact Run.returns_pure _

/-- From the array at the end of a nest as many elements are taken as there are ways to it, from the last
index on. -/
theorem returns_nest (hk : k.index? = some i) (path : List Step) {w : List Segment} (hw : k ∉ w)
    {xs : List Tree} (hxs : ∀ x ∈ xs, x.children = []) :
    Returns (ofStages (stagesOf (path ++ [.key k])) (nest w (.array xs)))
      ⟨(xs.drop i).take (ways path w), nest w (.array (closedUp i (ways path w) xs))⟩ := by
  induction path generalizing w xs with
  | nil => exact returns_key_nest hk hw xs
  | cons step path ih =>
    have hne : path ++ [.key k] ≠ [] := by simp
    have hbelow : ∀ {s : Segment} {w : List Segment}, k ∉ s :: w → k ∉ w := fun hw h =>
      hw (List.mem_cons_of_mem _ h)
    rw [List.cons_append]
    cases step with
    | key s =>
      cases w with
      | nil =>
        rw [ways, closedUp_zero, nest]
        cases hc : (Tree.array xs).child? s with
        | none =>
          rw [ofStages_stagesOf_key_of_none hc]
          exact Run.returns_pure _
        | some x =>
          have hx : x.children = [] := hxs x (Tree.mem_children_of_child? hc)
          have hself : (Tree.array xs).putChild s x = .array xs := Tree.putChild_self hc
          have hreturns := returns_stagesOf_key hne hc (returns_of_childless k path hx)
          rwa [none, hself] at hreturns
      | cons s' w =>
        rw [ways]
        by_cases hs : s' = s
        · subst hs
          have hchild : (nest (s' :: w) (.array xs)).child? s' = some (nest w (.array xs)) :=
            Tree.child?_nest_cons s' w (.array xs)
          have hreturns := returns_stagesOf_key hne hchild (ih (hbelow hw) hxs)
          rw [Tree.putChild_nest] at hreturns
          rw [if_pos rfl]
          exact hreturns
        · have hchild := Tree.child?_nest_of_ne (Ne.symm hs) w (.array xs)
          rw [if_neg hs, closedUp_zero, ofStages_stagesOf_key_of_none hchild]
          exact Run.returns_pure _
    | wildcard =>
      rw [stagesOf, ofStages_wildcard (Stage.stagesOf_ne_terminal hne)]
      cases w with
      | nil =>
        rw [ways, closedUp_zero]
        exact returns_fromChildren_none fun x hx => returns_of_childless k path (hxs x hx)
      | cons s w => exact returns_fromChildren_nest (ih (hbelow hw) hxs)
    | descent =>
      rw [stagesOf, ofStages_descent (Stage.stagesOf_ne_terminal hne)]
      exact returns_downwards_nest (fun t ht => returns_of_childless k path ht)
        (fun w hw xs hxs => ih hw hxs) hw (Tree.length_le_height_nest w _) hxs

/-- Above a nest a path without descents leads to it and to nothing else. -/
lemma exists_returns_nest_append {path : List Step} (hpath : path ≠ []) {t : Tree} {r : Removal}
    (hr : Returns (ofStages (stagesOf path) t) r) {pre : List Step} (hpre : .descent ∉ pre) :
    ∃ r', Returns (ofStages (stagesOf (pre ++ path)) (nest (pre.flatMap Step.taken) t)) r'
      ∧ r'.removed = r.removed := by
  induction pre with
  | nil => exact ⟨r, hr, rfl⟩
  | cons step pre ih =>
    obtain ⟨r', hr', hremoved⟩ := ih fun h => hpre (List.mem_cons_of_mem _ h)
    have hne : pre ++ path ≠ [] := by simp [hpath]
    rw [List.cons_append, List.flatMap_cons]
    cases step with
    | descent => exact absurd List.mem_cons_self hpre
    | key s =>
      exact ⟨_, returns_stagesOf_key hne (Tree.child?_nest_cons s _ t) hr', hremoved⟩
    | wildcard =>
      rw [stagesOf, ofStages_wildcard (Stage.stagesOf_ne_terminal hne)]
      exact ⟨_, returns_fromChildren_nest hr', hremoved⟩

end Removal

namespace Stage

open DocumentPath.Tree (nest)

/-- What is selected ends in the last key. -/
lemma getLast?_of_selects {k : Segment} {path : List Step} {q : List Segment}
    (hq : Selects (stagesOf (path ++ [.key k])) q) : q.getLast? = some k := by
  induction path generalizing q with
  | nil =>
    obtain ⟨r, hr, rfl⟩ := selects_stagesOf_key.mp hq
    rw [selects_terminal_iff.mp hr]
    rfl
  | cons step path ih =>
    have happend : ∀ {w r : List Segment}, Selects (stagesOf (path ++ [.key k])) r →
        (w ++ r).getLast? = some k := by
      intro w r hr
      rw [List.getLast?_append, ih hr]
      rfl
    cases step with
    | key s =>
      obtain ⟨r, hr, rfl⟩ := selects_stagesOf_key.mp hq
      exact happend (w := [s]) hr
    | wildcard =>
      obtain ⟨s, r, hr, rfl⟩ := selects_wildcard_iff.mp hq
      exact happend (w := [s]) hr
    | descent =>
      obtain ⟨w, r, hr, rfl⟩ := selects_descent_iff.mp hq
      exact happend hr

/-- If a path with two descents ends at an index that none of its keys after the first descent names,
then there is a tree from which it takes an element that does not match. -/
theorem exists_takes_other {k : Segment} {i : ℕ} (hk : k.index? = some i)
    (hi : i + 1 < Segment.indexBound) {pre mid path : List Step} (hpre : .descent ∉ pre)
    (hkeys : .key k ∉ mid ++ path) : ∃ (t : Tree) (r : Removal), t.WellFormed
      ∧ Run.Returns (Removal.ofStages
          (stagesOf (pre ++ .descent :: (mid ++ .descent :: path) ++ [.key k])) t) r
      ∧ ∃ x ∈ r.removed, ∀ q,
        Selects (stagesOf (pre ++ .descent :: (mid ++ .descent :: path) ++ [.key k])) q →
          t.at? q ≠ some x := by
  -- both ways to the row take an element from it, the second one the element behind the match
  obtain ⟨r, hr, hremoved⟩ := Removal.exists_returns_nest_append (by simp)
    (Removal.returns_nest hk (.descent :: (mid ++ .descent :: path)) (notMem_detour hk hkeys)
      fun _ hx => Tree.children_of_mem_row hx) hpre
  rw [← List.append_assoc] at hr
  have hmem : Tree.bool true ∈ r.removed := by
    obtain ⟨n, hn⟩ := Nat.exists_eq_add_of_le (two_le_ways mid path)
    rw [hremoved, hn, Tree.drop_row, Nat.add_comm]
    simp
  have hwf := Tree.wellFormed_nest (Tree.wellFormed_row hi) (detour mid path)
  refine ⟨nest (pre.flatMap Step.taken) (nest (detour mid path) (.array (Tree.row i))), r,
    Tree.wellFormed_nest hwf _, hr, _, hmem, fun q hq hat => ?_⟩
  -- what is selected ends in `k`, and so in the row at the null of that index
  rw [← Tree.nest_append] at hat
  rcases Tree.at?_nest_cases hat with hkind | ⟨s, rfl, hrest⟩
  · exact absurd hkind (by simp [Tree.kind])
  · have hlast := getLast?_of_selects hq
    cases s with
    | nil => exact absurd (Option.some.inj hrest) (by simp)
    | cons s rest =>
      obtain ⟨c, hc, hend⟩ := Tree.at?_cons_eq_some_iff.mp hrest
      have hleaf := Tree.children_of_mem_row (Tree.mem_children_of_child? hc)
      obtain ⟨rfl, rfl⟩ := Tree.eq_nil_of_at? hleaf hend
      rw [List.getLast?_concat, Option.some_inj] at hlast
      rw [hlast, Tree.child?, hk, Option.bind_some, Tree.element?, Tree.getElem?_row] at hc
      exact absurd hc (by simp)

end Stage

namespace Selector

open Stage (Selects)

/-- Everything that removing through the selector detaches from the tree stood at a location that the
selector matches. -/
def RemovesMatches (s : Selector) (t : Tree) : Prop :=
  ∀ σ : Session, σ.cache.Faithful → ∀ x ∈ ((s.remove t).run σ).1.removed,
    ∃ q, Selects s.stages q ∧ t.at? q = some x

/-- Where the stages take nothing but matches, the selector removes nothing but matches. -/
lemma removesMatches_of_takesMatches {s : Selector} {t : Tree} (h : Stage.TakesMatches s.stages t) :
    s.RemovesMatches t := by
  obtain ⟨r, hr, hmatch⟩ := h
  intro σ hσ x hx
  rw [remove_eq_ofStages, (hr σ hσ).1] at hx
  exact hmatch x hx

/-- A path that does not end at an index takes matches only. -/
theorem removesMatches_of_not_index {s : Selector} {steps : List Step}
    (hsteps : s.stages = stagesOf steps)
    (hlast : ∀ k, steps.getLast? = some (.key k) → k.isIndex = false) {t : Tree}
    (ht : t.WellFormed) : s.RemovesMatches t := by
  refine removesMatches_of_takesMatches ?_
  rw [hsteps]
  rcases List.eq_nil_or_concat' steps with rfl | ⟨front, last, rfl⟩
  · exact ⟨.none t, Run.returns_pure _, fun x hx => absurd hx List.not_mem_nil⟩
  · cases last with
    | key k =>
      have hk : k.isIndex = false := hlast k List.getLast?_concat
      exact Stage.takesMatches_of_plain (Stage.endsPlainly_stagesOf_key hk front) ht
    | wildcard => exact (Stage.takesMatches_of_descent front ht).1
    | descent => exact (Stage.takesMatches_of_descent front ht).2

/-- The segments of a path between its first descent and its last segment. -/
def innerSteps (steps : List Step) : List Step :=
  (steps.dropWhile (· ≠ .descent)).tail.dropLast

/-- The inner steps are those between the first descent and the last step. -/
lemma innerSteps_concat {pre rest : List Step} (hpre : .descent ∉ pre) (last : Step) :
    innerSteps (pre ++ .descent :: rest ++ [last]) = rest := by
  have hpass : ∀ step ∈ pre, decide (step ≠ Step.descent) = true := fun step hstep =>
    decide_eq_true fun h => hpre (h ▸ hstep)
  rw [innerSteps, List.append_assoc, List.dropWhile_append_of_pos hpass, List.cons_append,
    List.dropWhile_cons_of_neg (by simp), List.tail_cons, List.dropLast_concat]

/-- A path that ends at an index takes matches only if it has at most one descent and names no index
after it that is not below the last one. -/
theorem removesMatches_of_one_descent {s : Selector} {front : List Step} {k : Segment} {i : ℕ}
    (hsteps : s.stages = stagesOf (front ++ [.key k])) (hk : k.index? = some i)
    (hcount : front.count .descent ≤ 1)
    (hlow : ∀ s' j, .key s' ∈ innerSteps (front ++ [.key k]) → s'.index? = some j → j < i)
    {t : Tree} (ht : t.WellFormed) : s.RemovesMatches t := by
  refine removesMatches_of_takesMatches ?_
  rw [hsteps]
  by_cases hmem : .descent ∈ front
  · obtain ⟨pre, rest, rfl, hpre⟩ := List.eq_append_cons_of_mem hmem
    rw [innerSteps_concat hpre] at hlow
    have hrest : .descent ∉ rest := by
      rw [← List.count_eq_zero]
      simp only [List.count_append, List.count_cons_self] at hcount
      omega
    rw [List.append_assoc, List.cons_append]
    exact Stage.takesMatches_of_index hk hpre hrest hlow ht
  · exact Stage.takesMatches_of_direct hk hmem ht

/-- A path that ends at an index and has two descents takes more than matches from some tree, unless a
key after the first descent is the last one again. -/
theorem exists_not_removesMatches {s : Selector} {front : List Step} {k : Segment} {i : ℕ}
    (hsteps : s.stages = stagesOf (front ++ [.key k])) (hk : k.index? = some i)
    (hi : i + 1 < Segment.indexBound) (hcount : 2 ≤ front.count .descent)
    (hkeys : .key k ∉ innerSteps (front ++ [.key k])) :
    ∃ t : Tree, t.WellFormed ∧ ¬ s.RemovesMatches t := by
  obtain ⟨pre, rest, rfl, hpre⟩ := List.eq_append_cons_of_mem
    (List.count_pos_iff.mp (show 0 < front.count .descent by omega))
  have hone : 0 < rest.count .descent := by
    rw [List.count_append, List.count_eq_zero.mpr hpre, List.count_cons_self] at hcount
    omega
  rw [innerSteps_concat hpre] at hkeys
  obtain ⟨mid, last, rfl, -⟩ := List.eq_append_cons_of_mem (List.count_pos_iff.mp hone)
  have hkeys' : .key k ∉ mid ++ last := by
    simp only [List.mem_append, List.mem_cons, not_or] at hkeys ⊢
    exact ⟨hkeys.1, hkeys.2.2⟩
  obtain ⟨t, r, ht, hr, x, hx, hother⟩ := Stage.exists_takes_other hk hi hpre hkeys'
  refine ⟨t, ht, fun hmatch => ?_⟩
  have hσ : (Session.ofCapacity 1).cache.Faithful := Cache.faithful_ofCapacity 1
  have hresult : ((s.remove t).run (Session.ofCapacity 1)).1 = r := by
    rw [remove_eq_ofStages, hsteps]
    exact (hr _ hσ).1
  obtain ⟨q, hq, hat⟩ := hmatch _ hσ x (hresult ▸ hx)
  rw [hsteps] at hq
  exact hother q hq hat

/-- When removing through a selector takes matches only.  If the path does not end at an index, always.
If it ends at an index, then with at most one descent, unless a key after the descent names an index not
below the last one; and with two descents not from every tree, unless a key after the first descent is
the last one again. -/
theorem removesMatches_of_compile {path : String} {s : Selector} (hs : compile path = .ok s) :
    ((∀ k, (Stage.steps s.stages).getLast? = some (.key k) → k.isIndex = false) →
        ∀ t : Tree, t.WellFormed → s.RemovesMatches t) ∧
      ∀ k i, (Stage.steps s.stages).getLast? = some (.key k) → k.index? = some i →
        ((Stage.steps s.stages).count .descent ≤ 1 →
          (∀ s' j, .key s' ∈ innerSteps (Stage.steps s.stages) → s'.index? = some j → j < i) →
          ∀ t : Tree, t.WellFormed → s.RemovesMatches t) ∧
        (2 ≤ (Stage.steps s.stages).count .descent → i + 1 < Segment.indexBound →
          .key k ∉ innerSteps (Stage.steps s.stages) →
          ∃ t : Tree, t.WellFormed ∧ ¬ s.RemovesMatches t) := by
  rcases stages_of_compile hs with hroot | ⟨steps, hsteps⟩
  · have hnone : Stage.steps s.stages = [] := by
      rw [hroot]
      rfl
    rw [hnone]
    refine ⟨fun _ t _ => removesMatches_of_takesMatches ?_, fun k i hlast => absurd hlast (by simp)⟩
    rw [hroot]
    exact ⟨.none t, Run.returns_pure _, fun x hx => absurd hx List.not_mem_nil⟩
  · have hpath : Stage.steps s.stages = steps := by rw [hsteps, Stage.steps_stagesOf]
    rw [hpath]
    refine ⟨fun hlast t ht => removesMatches_of_not_index hsteps hlast ht, fun k i hlast hk => ?_⟩
    obtain ⟨front, rfl⟩ := List.getLast?_eq_some_iff.mp hlast
    have hfront : (front ++ [Step.key k]).count .descent = front.count .descent := by
      rw [List.count_append]
      rfl
    rw [hfront]
    exact ⟨fun hcount hlow t ht => removesMatches_of_one_descent hsteps hk hcount hlow ht,
      fun hcount hi hkeys => exists_not_removesMatches hsteps hk hi hcount hkeys⟩

/-- The path `/**/0` takes matches only, and there is a tree from which `/**/**/0` takes more. -/
theorem removesMatches_one_descent : ∃ s s' : Selector,
    compile "/**/0" = .ok s ∧ compile "/**/**/0" = .ok s'
      ∧ (∀ t : Tree, t.WellFormed → s.RemovesMatches t)
      ∧ ∃ t : Tree, t.WellFormed ∧ ¬ s'.RemovesMatches t := by
  have hone : compile "/**/0" = .ok ⟨"/**/0", [.descent, .literal ⟨[⟨"0"⟩]⟩, .terminal]⟩ := rfl
  have htwo : compile "/**/**/0"
      = .ok ⟨"/**/**/0", [.descent, .descent, .literal ⟨[⟨"0"⟩]⟩, .terminal]⟩ := rfl
  have hindex : (⟨"0"⟩ : Segment).index? = some 0 := by decide
  refine ⟨_, _, hone, htwo, ?_, ?_⟩
  · refine ((removesMatches_of_compile hone).2 ⟨"0"⟩ 0 rfl hindex).1 (by decide) fun s' j hs' => ?_
    exact absurd hs' (by simp [Stage.steps, innerSteps])
  · exact ((removesMatches_of_compile htwo).2 ⟨"0"⟩ 0 rfl hindex).2 (by decide) (by decide) (by decide)

/-- The path `/**/**/0` takes both elements from `{"a": [1, 2]}`, although only the first one matches. -/
theorem not_removesMatches_two_descents : ∃ s : Selector, compile "/**/**/0" = .ok s
    ∧ ¬ s.RemovesMatches (.map [("a", .array [.number (.int 1), .number (.int 2)])]) := by
  refine ⟨⟨"/**/**/0", [.descent, .descent, .literal ⟨[⟨"0"⟩]⟩, .terminal]⟩, rfl, fun h => ?_⟩
  have ht : (Tree.map [("a", .array [.number (.int 1), .number (.int 2)])]).WellFormed := by decide
  obtain ⟨q, hq, hat⟩ := h (.ofCapacity 1) (Cache.faithful_ofCapacity 1) (.number (.int 2))
    (by decide)
  have hvisit := (Stage.mem_visits_iff ht).mpr ⟨hq, _, hat⟩
  have hvisits : Stage.visits [.descent, .descent, .literal ⟨[⟨"0"⟩]⟩, .terminal]
      (Tree.map [("a", .array [.number (.int 1), .number (.int 2)])])
      = [[⟨"a"⟩, ⟨"0"⟩], [⟨"a"⟩, ⟨"0"⟩]] := by decide
  rw [hvisits] at hvisit
  obtain rfl : q = [⟨"a"⟩, ⟨"0"⟩] := by simpa using hvisit
  exact absurd hat (by decide)

end Selector

end DocumentPath
