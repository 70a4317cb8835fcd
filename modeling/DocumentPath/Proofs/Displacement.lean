import Mathlib
import DocumentPath.Proofs.Landings

/-!
# A displaced element

Three copies into the empty map that bring two elements of one array of the source to one element of the
destination.  The first copy leaves an array whose first element is a value, the `stub`.  The second comes
to this array from another location of the source: it goes into an element with the index 0, cannot go on
from the value, and is displaced to a new element at the index 1.  The third goes into the element with
the index 1 of the same array of the source, finds its own index in use, and lands in the element of the
second copy (`Tree.Displaced.landing`).

What a copy leaves where there was nothing is a `Tree.chain`, and a copy whose elements all come first
follows a chain to its end (`Tree.walk_chain`).  `Tree.Stubbed` and `Tree.Displaced` are the states after
the first and after the second copy; making these copies again changes nothing.
-/

namespace DocumentPath

/-! ### What a copy leaves where there was nothing -/

/-- The segment under which the first copy along a segment lands: an index is the first of its array. -/
def Segment.leading (s : Segment) : Segment := if s.isIndex then .ofIndex 0 else s

lemma Segment.index?_ofIndex_zero : (ofIndex 0).index? = some 0 :=
  index?_ofIndex (by simp [indexBound])

lemma Segment.index?_ofIndex_one : (ofIndex 1).index? = some 1 :=
  index?_ofIndex (by simp [indexBound])

/-- The leading segment of an index is 0. -/
lemma Segment.leading_of_index? {s : Segment} {i : ℕ} (h : s.index? = some i) :
    s.leading = ofIndex 0 := by
  rw [leading, isIndex, h, Option.isSome_some, if_pos rfl]

/-- A leading segment is its own leading one. -/
lemma Segment.leading_leading (s : Segment) : s.leading.leading = s.leading := by
  cases hs : s.index? with
  | some i => rw [leading_of_index? hs, leading_of_index? index?_ofIndex_zero]
  | none =>
    have hself : s.leading = s := by
      rw [leading, isIndex, hs, Option.isSome_none, if_neg Bool.false_ne_true]
    rw [hself, hself]

/-- What leads first and is an index is the first. -/
lemma Segment.index?_leading {s : Segment} (h : s.leading.isIndex = true) :
    s.leading.index? = some 0 := by
  cases hs : s.index? with
  | some i => rw [leading_of_index? hs, index?_ofIndex_zero]
  | none =>
    have hself : s.leading = s := by
      rw [leading, isIndex, hs, Option.isSome_none, if_neg Bool.false_ne_true]
    rw [hself, isIndex, hs] at h
    exact absurd h (by simp)

/-- Where two ways part, only segments that lead first follow. -/
lemma Segment.index?_of_leading (way : List Segment) {q q' : List Segment} (e : List Segment)
    (s : Segment) (hpre : e ++ [s] <+: way ++ .ofIndex 0 :: q.map leading)
    (hnot : ¬ e ++ [s] <+: way ++ q') (hs : s.isIndex = true) : s.index? = some 0 := by
  rcases List.prefix_or_prefix_of_prefix hpre (List.prefix_append way _) with h | ⟨l, hl⟩
  · exact absurd (h.trans (List.prefix_append way q')) hnot
  · rcases List.eq_nil_or_concat l with rfl | ⟨l, x, rfl⟩
    · rw [List.append_nil] at hl
      exact absurd (hl ▸ List.prefix_append way q') hnot
    · rw [List.concat_eq_append, ← List.append_assoc] at hl
      obtain rfl : x = s := (List.cons.inj (List.append_inj_right' hl rfl)).1
      rw [← hl, List.append_assoc, List.prefix_append_right_inj] at hpre
      have hmem : x ∈ ofIndex 0 :: q.map leading := hpre.subset (by simp)
      rcases List.mem_cons.mp hmem with rfl | hmem
      · exact index?_ofIndex_zero
      · obtain ⟨s, -, rfl⟩ := List.mem_map.mp hmem
        exact index?_leading hs

namespace Tree

/-- A node with nothing above it but the containers that a copy makes on its way. -/
def chain : List Segment → Tree → Tree
  | [], t => t
  | s :: rest, t =>
    if s.isIndex then .array [chain rest t] else .map [(s.key, chain rest t)]

/-- An index leads to the first element, whatever it is. -/
lemma chain_map_leading (p : List Segment) (t : Tree) :
    chain (p.map Segment.leading) t = chain p t := by
  induction p with
  | nil => rfl
  | cons s rest ih =>
    rw [List.map_cons, chain, chain, ih]
    cases hs : s.isIndex with
    | true =>
      have hzero : s.leading.isIndex = true := by
        rw [Segment.leading, if_pos hs, Segment.isIndex, Segment.index?_ofIndex_zero,
          Option.isSome_some]
      rw [if_pos hzero, if_pos rfl]
    | false =>
      have hself : s.leading = s := by
        rw [Segment.leading, hs, if_neg Bool.false_ne_true]
      rw [hself, hs]

/-- A copy can go on at a chain if it can at the end of it. -/
lemma ready_chain {rest : List Segment} {u : Tree} (h : ready rest u = true) (p : List Segment) :
    ready (p ++ rest) (chain p u) = true := by
  cases p with
  | nil => exact h
  | cons s p =>
    rw [List.cons_append, ready_cons, chain]
    cases s.isIndex <;> rfl

/-- Along `p` everything is on record as a first element, or has not been placed and is the first by its
own index. -/
def LeadsFirst (pl : Placement) (w p : List Segment) : Prop :=
  ∀ e s, e ++ [s] <+: p → s.isIndex = true → (pl.get? (w ++ (e ++ [s]))).or s.index? = some 0

/-- What leads to first elements does so behind its first segment. -/
lemma LeadsFirst.tail {pl pl' : Placement} {w : List Segment} {s : Segment} {rest : List Segment}
    (h : LeadsFirst pl w (s :: rest))
    (hpl : ∀ e, e ≠ [] → pl'.get? (w ++ [s] ++ e) = pl.get? (w ++ [s] ++ e)) :
    LeadsFirst pl' (w ++ [s]) rest := by
  intro e x hpre hx
  rw [hpl _ (by simp), List.append_assoc]
  exact h (s :: e) x (List.cons_prefix_cons.mpr ⟨rfl, hpre⟩) hx

/-- Only what is placed no deeper than the end of the way matters. -/
lemma LeadsFirst.congr {pl pl' : Placement} {w p : List Segment} (h : LeadsFirst pl w p)
    (hpl : ∀ e, e.length ≤ (w ++ p).length → pl'.get? e = pl.get? e) : LeadsFirst pl' w p := by
  intro e s hpre hs
  have hlen : (w ++ (e ++ [s])).length ≤ (w ++ p).length := by
    have := hpre.length_le
    simp only [List.length_append] at this ⊢
    omega
  rw [hpl _ hlen]
  exact h e s hpre hs

/-- A key, or an index that stands for 0, leads on to first elements. -/
lemma LeadsFirst.cons {pl : Placement} {w : List Segment} {s : Segment} {rest : List Segment}
    (h : LeadsFirst pl (w ++ [s]) rest)
    (hs : s.isIndex = true → (pl.get? (w ++ [s])).or s.index? = some 0) :
    LeadsFirst pl w (s :: rest) := by
  intro e x hpre hx
  cases e with
  | nil =>
    obtain rfl := (List.cons_prefix_cons.mp hpre).1
    exact hs hx
  | cons y e =>
    obtain ⟨rfl, hpre'⟩ := List.cons_prefix_cons.mp hpre
    have hfirst := h e x hpre' hx
    rwa [List.append_assoc] at hfirst

/-- A copy where there is nothing leaves nothing but its way and the copied node. -/
theorem copyOver_freshAlong (v : Tree) {w p : List Segment} (pl : Placement)
    (h : ∀ e, e ≠ [] → e <+: p → pl.get? (w ++ e) = none) :
    (copyOver v w p pl (freshAlong p)).1 = .ok (chain p v) ∧
      LeadsFirst (copyOver v w p pl (freshAlong p)).2 w p := by
  induction p generalizing w pl with
  | nil => exact ⟨rfl, fun e s hpre _ => absurd (List.prefix_nil.mp hpre) (by simp)⟩
  | cons s rest ih =>
    have hself : pl.get? (w ++ [s]) = none := h [s] (by simp) ⟨rest, rfl⟩
    have hbelow : ∀ e, e ≠ [] → e <+: rest → pl.get? (w ++ [s] ++ e) = none := by
      intro e he hpre
      rw [List.append_assoc]
      exact h (s :: e) (by simp) (List.cons_prefix_cons.mpr ⟨rfl, hpre⟩)
    cases hs : s.isIndex with
    | true =>
      have hseat : seat? pl (w ++ [s]) s rest [] = none := by
        rw [seat?, slot?, Option.filter_eq_none_iff]
        intro i _
        simp
      have hbelow' : ∀ e, e ≠ [] → e <+: rest →
          (pl.record (w ++ [s]) 0).get? (w ++ [s] ++ e) = none := by
        intro e he hpre
        rw [Placement.get?_record_of_ne _ (by simpa using Ne.symm he)]
        exact hbelow e he hpre
      obtain ⟨hout, hfirst⟩ := ih _ hbelow'
      rw [freshAlong, freshFor, if_pos hs, copyOver_array_new v w pl hseat, chain, if_pos hs]
      refine ⟨by rw [List.length_nil, hout]; rfl, hfirst.cons fun _ => ?_⟩
      rw [get?_copyOver_self, Placement.get?_record_self, hself, Option.getD_none, Option.some_or]
    | false =>
      obtain ⟨hout, hfirst⟩ := ih _ hbelow
      have hfield : fieldAlong [] s rest = freshAlong rest := rfl
      have hready : ready rest (fieldAlong [] s rest) = true := ready_freshAlong rest
      rw [freshAlong, freshFor, hs, if_neg Bool.false_ne_true, copyOver_map v w pl hready, hfield,
        chain, hs, if_neg Bool.false_ne_true]
      exact ⟨by rw [hout]; rfl,
        hfirst.cons fun hx => absurd (hs.symm.trans hx) Bool.false_ne_true⟩

/-- How a copy along `p ++ rest` goes on below the end of `p`: from the node `u`, with the placement `pl₁`,
with `put` to put the outcome back in its place, and landing below `d`. -/
structure Walk (pl : Placement) (w p rest : List Segment) (t u : Tree) (pl₁ : Placement)
    (put : Tree → Tree) (d : List Segment) : Prop where
  /-- The copy is a copy below the end of the way. -/
  copy : ∀ v, copyOver v w (p ++ rest) pl t
    = (⟨put (copyOver v (w ++ p) rest pl₁ u).1.tree, (copyOver v (w ++ p) rest pl₁ u).1.error⟩,
      (copyOver v (w ++ p) rest pl₁ u).2)
  /-- It lands below `d`. -/
  landing : landing w (p ++ rest) pl t = d ++ Tree.landing (w ++ p) rest pl₁ u
  /-- Only what lies on the way may have been placed. -/
  entries : ∀ e, (∀ r, r ≠ [] → r <+: p → e ≠ w ++ r) → pl₁.get? e = pl.get? e

/-- A way of no segments. -/
lemma Walk.nil (pl : Placement) (w rest : List Segment) (t : Tree) :
    Walk pl w [] rest t t pl id [] := by
  refine ⟨fun v => ?_, ?_, fun _ _ => rfl⟩
  · rw [List.append_nil]
    rfl
  · rw [List.append_nil]
    rfl

/-- A step before a way. -/
lemma Walk.cons {pl pl₁ pl₂ : Placement} {w p rest d : List Segment} {s x : Segment} {t t₁ u : Tree}
    {put' : Tree → Tree} (put : Tree → Tree)
    (hcopy : ∀ v, copyOver v w (s :: (p ++ rest)) pl t
      = (⟨put (copyOver v (w ++ [s]) (p ++ rest) pl₁ t₁).1.tree,
          (copyOver v (w ++ [s]) (p ++ rest) pl₁ t₁).1.error⟩,
        (copyOver v (w ++ [s]) (p ++ rest) pl₁ t₁).2))
    (hlanding : Tree.landing w (s :: (p ++ rest)) pl t
      = x :: Tree.landing (w ++ [s]) (p ++ rest) pl₁ t₁)
    (hentries : ∀ e, e ≠ w ++ [s] → pl₁.get? e = pl.get? e)
    (h : Walk pl₁ (w ++ [s]) p rest t₁ u pl₂ put' d) :
    Walk pl w (s :: p) rest t u pl₂ (fun t => put (put' t)) (x :: d) := by
  refine ⟨fun v => ?_, ?_, fun e he => ?_⟩
  · rw [List.cons_append, hcopy v, h.copy v, List.append_cons w s p]
  · rw [List.cons_append, hlanding, h.landing, List.append_cons w s p]
    rfl
  · rw [h.entries e, hentries e]
    · exact he [s] (by simp) (List.cons_prefix_cons.mpr ⟨rfl, List.nil_prefix⟩)
    · intro r _ hr heq
      rw [List.append_assoc] at heq
      exact he (s :: r) (by simp) (List.cons_prefix_cons.mpr ⟨rfl, hr⟩) heq

/-- A step after a way. -/
lemma Walk.concat {pl pl₁ pl₂ : Placement} {w p rest d : List Segment} {s : Segment} {t u u₁ : Tree}
    {put put' : Tree → Tree} (h : Walk pl w p (s :: rest) t u pl₁ put d)
    (hstep : Step pl₁ (w ++ p) s rest u u₁ pl₂ put') :
    Walk pl w (p ++ [s]) rest t u₁ pl₂ (fun t => put (put' t)) (d ++ [pl₂.seat (w ++ p) s]) := by
  refine ⟨fun v => ?_, ?_, fun e he => ?_⟩
  · rw [List.append_assoc, List.singleton_append, h.copy v, hstep.copy v, List.append_assoc w p]
  · rw [List.append_assoc, List.singleton_append, h.landing, hstep.landing, List.append_assoc d,
      List.append_assoc w p]
    rfl
  · rw [hstep.entries e, h.entries e]
    · exact fun r hr hpre => he r hr (hpre.trans (List.prefix_append p [s]))
    · rw [List.append_assoc]
      exact he _ (by simp) List.prefix_rfl

/-- What is placed above the end of a step is not changed by the way that follows. -/
lemma Walk.get?_eq {pl pl₁ : Placement} {w p rest d : List Segment} {t u : Tree} {put : Tree → Tree}
    (h : Walk pl w p rest t u pl₁ put d) {e : List Segment} (he : e.length ≤ w.length) :
    pl₁.get? e = pl.get? e := by
  refine h.entries e fun r hr _ heq => hr ?_
  rw [heq, List.length_append] at he
  exact List.length_eq_zero_iff.mp (by omega)

/-- A step along a key, before the way along the rest of a chain. -/
lemma Walk.chain_cons {pl pl₁ : Placement} {w p rest d : List Segment} {s : Segment} {u : Tree}
    (hready : ready rest u = true) (h : Walk pl (w ++ [s]) p rest (chain p u) u pl₁ (chain p) d) :
    Walk pl w (s :: p) rest (.map [(s.key, chain p u)]) u pl₁
      (fun x => .map [(s.key, chain p x)]) (s :: d) := by
  have hfield : fieldAlong [(s.key, chain p u)] s (p ++ rest) = chain p u := by
    simp [fieldAlong, Entries.get?]
  have hready' : ready (p ++ rest) (fieldAlong [(s.key, chain p u)] s (p ++ rest)) = true := by
    rw [hfield]
    exact ready_chain hready p
  have hlanding : Tree.landing w (s :: (p ++ rest)) pl (.map [(s.key, chain p u)])
      = s :: Tree.landing (w ++ [s]) (p ++ rest) pl (chain p u) := by
    rw [Tree.landing, hfield]
  refine .cons (fun x => .map [(s.key, x)]) (fun v => ?_) hlanding (fun _ _ => rfl) h
  rw [copyOver_map v w pl hready', hfield]
  simp [Entries.insert]

/-- A copy follows a chain that leads first. -/
theorem walk_chain {p : List Segment} (rest : List Segment) (u : Tree) (hready : ready rest u = true)
    {w : List Segment} {pl : Placement} (h : LeadsFirst pl w p) : ∃ pl₁,
      Walk pl w p rest (chain p u) u pl₁ (chain p) (p.map Segment.leading) ∧
        LeadsFirst pl₁ w p := by
  induction p generalizing w pl with
  | nil => exact ⟨pl, .nil pl w rest u, h⟩
  | cons s p ih =>
    cases hs : s.isIndex with
    | true =>
      have hfirst : (pl.get? (w ++ [s])).or s.index? = some 0 := h [] s ⟨p, rfl⟩ hs
      have hseat : seat? pl (w ++ [s]) s (p ++ rest) [chain p u] = some 0 := by
        rw [seat?, slot?, hfirst, Option.filter_some, List.getElem?_cons_zero, Option.map_some,
          Option.getD_some, if_pos (ready_chain hready p)]
      have hstep := step_array_reused hseat
      obtain ⟨pl₁, hwalk, hleads⟩ := ih (h.tail (fun e he => hstep.below he))
      have hself : pl₁.get? (w ++ [s]) = some 0 := by
        rw [hwalk.get?_eq le_rfl, get?_record_of_seat? hseat]
      rw [chain, if_pos hs, List.map_cons, Segment.leading, if_pos hs]
      refine ⟨pl₁, ?_, hleads.cons fun _ => by rw [hself, Option.some_or]⟩
      have hput : chain (s :: p) = fun x => .array ([chain p u].set 0 (chain p x)) := by
        funext x
        rw [chain, if_pos hs]
        rfl
      rw [hput]
      exact .cons (fun x => .array ([chain p u].set 0 x)) hstep.copy (landing_array_reused hseat)
        hstep.entries hwalk
    | false =>
      obtain ⟨pl₁, hwalk, hleads⟩ := ih (h.tail fun _ _ => rfl)
      refine ⟨pl₁, ?_, hleads.cons fun hx => absurd (hs.symm.trans hx) Bool.false_ne_true⟩
      have hput : chain (s :: p) = fun x => .map [(s.key, chain p x)] := by
        funext x
        rw [chain, hs, if_neg Bool.false_ne_true]
      rw [hput, List.map_cons, Segment.leading, hs, if_neg Bool.false_ne_true]
      exact hwalk.chain_cons hready

/-- From the root a copy follows a chain under the one key that is there. -/
theorem walk_root {m : Segment} {p : List Segment} (rest : List Segment) (u : Tree) (hready : ready rest u = true)
    {pl : Placement} (h : LeadsFirst pl [m] p) : ∃ pl₁,
      Walk pl [] (m :: p) rest (.map [(m.key, chain p u)]) u pl₁
          (fun x => .map [(m.key, chain p x)]) (m :: p.map Segment.leading) ∧
        LeadsFirst pl₁ [m] p := by
  obtain ⟨pl₁, hwalk, hleads⟩ := walk_chain rest u hready h
  exact ⟨pl₁, hwalk.chain_cons hready, hleads⟩

/-! ### The three copies -/

/-- The array with a value as its first element. -/
def stub : Tree := .array [.null]

/-- What is copied from the elements. -/
def mark : Tree := .bool true

/-- After the first copy, along `m :: p`.  The array of the source is at `m :: q`. -/
structure Stubbed (m : Segment) (p q : List Segment) (pl : Placement) (t : Tree) : Prop where
  tree : t = .map [(m.key, chain p stub)]
  way : LeadsFirst pl [m] p
  other : LeadsFirst pl [m] q
  free : ∀ s e, pl.get? (m :: q ++ s :: e) = none

/-- After the second copy, along `m :: q ++ .ofIndex 0 :: r`. -/
structure Displaced (m : Segment) (q r : List Segment) (pl : Placement) (t : Tree) : Prop where
  tree : t = .map [(m.key, chain q (.array [.null, chain r mark]))]
  way : LeadsFirst pl [m] q
  element : pl.get? (m :: q ++ [.ofIndex 0]) = some 1
  below : LeadsFirst pl (m :: q ++ [.ofIndex 0]) r
  free : pl.get? (m :: q ++ [.ofIndex 1]) = none

section

variable {m : Segment} {p q r : List Segment} {pl pl' : Placement} {t : Tree}

/-- Off a way that leads first another way leads first as before. -/
lemma LeadsFirst.of_off_path (h : LeadsFirst pl' [m] p)
    (hentries : ∀ e, (∀ r, r ≠ [] → r <+: m :: p → e ≠ [] ++ r) → pl'.get? e = pl.get? e)
    (hq : ∀ e s, e ++ [s] <+: q → ¬ e ++ [s] <+: p → s.isIndex = true →
      (pl.get? ([m] ++ (e ++ [s]))).or s.index? = some 0) : LeadsFirst pl' [m] q := by
  intro e s hpre hs
  by_cases hp : e ++ [s] <+: p
  · exact h e s hp hs
  · rw [hentries]
    · exact hq e s hpre hp hs
    · rintro r - hr rfl
      exact hp (List.cons_prefix_cons.mp hr).2

/-- Nothing is placed deeper than a way goes. -/
lemma get?_of_length_lt {p e : List Segment} (hlen : p.length < e.length)
    (hentries : ∀ e, (∀ r, r ≠ [] → r <+: p → e ≠ [] ++ r) → pl'.get? e = pl.get? e) :
    pl'.get? e = pl.get? e := by
  refine hentries e fun r _ hr heq => ?_
  have := hr.length_le
  rw [heq] at hlen
  exact absurd hlen (by simpa using this)

/-- The first copy. -/
lemma stubbed_copyOver_empty (hlen : p.length ≤ q.length)
    (hq : ∀ e s, e ++ [s] <+: q → ¬ e ++ [s] <+: p → s.isIndex = true → s.index? = some 0) :
    (copyOver stub [] (m :: p) .empty (.map [])).1.error = none ∧
      Stubbed m p q (copyOver stub [] (m :: p) .empty (.map [])).2
        (copyOver stub [] (m :: p) .empty (.map [])).1.tree := by
  have hfield : fieldAlong [] m p = freshAlong p := rfl
  have hready : ready p (fieldAlong [] m p) = true := ready_freshAlong p
  have hentries : ∀ e, (∀ r, r ≠ [] → r <+: m :: p → e ≠ [] ++ r) →
      (copyOver stub [] (m :: p) .empty (.map [])).2.get? e = Placement.empty.get? e :=
    fun e he => get?_copyOver_off_path he
  obtain ⟨hout, hleads⟩ := copyOver_freshAlong stub (w := [m]) (p := p) .empty
    fun _ _ _ => rfl
  have hcopy := copyOver_map stub [] .empty hready
  rw [hfield, List.nil_append, hout] at hcopy
  have hway : LeadsFirst (copyOver stub [] (m :: p) .empty (.map [])).2 [m] p := by
    rw [hcopy]
    exact hleads
  refine ⟨by rw [hcopy]; rfl, by rw [hcopy]; rfl, hway,
    hway.of_off_path hentries fun e s hpre hp hs => hq e s hpre hp hs, fun s e => ?_⟩
  exact get?_of_length_lt (by simp; omega) hentries

/-- The first copy, made again. -/
lemma Stubbed.again (h : Stubbed m p q pl t) (hlen : p.length ≤ q.length) :
    (copyOver stub [] (m :: p) pl t).1.error = none ∧
      Stubbed m p q (copyOver stub [] (m :: p) pl t).2 (copyOver stub [] (m :: p) pl t).1.tree := by
  obtain ⟨pl₁, hwalk, hleads⟩ := walk_root [] stub (ready_nil _) h.way
  have hcopy := hwalk.copy stub
  rw [List.append_nil, copyOver_nil] at hcopy
  rw [h.tree, hcopy]
  refine ⟨rfl, rfl, hleads, hleads.of_off_path hwalk.entries fun e s hpre _ hs => h.other e s hpre hs,
    fun s e => ?_⟩
  rw [← h.free s e]
  exact get?_of_length_lt (by simp; omega) hwalk.entries

/-- The second copy. -/
lemma Stubbed.displaced (h : Stubbed m p q pl t)
    (hpq : p.map Segment.leading = q.map Segment.leading) (hr : r ≠ []) :
    (copyOver mark [] (m :: q ++ .ofIndex 0 :: r) pl t).1.error = none ∧
      Displaced m q r (copyOver mark [] (m :: q ++ .ofIndex 0 :: r) pl t).2
        (copyOver mark [] (m :: q ++ .ofIndex 0 :: r) pl t).1.tree ∧
      ∃ d, landing [] (m :: q ++ .ofIndex 0 :: r) pl t
        = m :: q.map Segment.leading ++ .ofIndex 1 :: d := by
  have hchain : chain p stub = chain q stub := by
    rw [← chain_map_leading p, hpq, chain_map_leading]
  obtain ⟨pl₁, hwalk, hleads⟩ := walk_root (.ofIndex 0 :: r) stub rfl h.other
  have hfree : ∀ s e, pl₁.get? (m :: q ++ s :: e) = none := by
    intro s e
    rw [← h.free s e]
    exact get?_of_length_lt (by simp) hwalk.entries
  have hseat : seat? pl₁ ([] ++ m :: q ++ [.ofIndex 0]) (.ofIndex 0) r [.null] = none := by
    have hready : ready r .null = false := by
      cases r with
      | nil => exact absurd rfl hr
      | cons s r => rfl
    rw [seat?, slot?, List.nil_append, hfree, Option.none_or, Segment.index?_ofIndex_zero,
      Option.filter_some, List.getElem?_cons_zero, Option.map_some, hready]
    rfl
  obtain ⟨hout, hbelow⟩ := copyOver_freshAlong mark (w := m :: q ++ [.ofIndex 0]) (p := r)
    (pl₁.record (m :: q ++ [.ofIndex 0]) 1) fun e he _ => by
      rw [Placement.get?_record_of_ne _ (by simpa using Ne.symm he), List.append_assoc]
      exact hfree _ _
  have hcopy := hwalk.copy mark
  rw [stub, copyOver_array_new mark _ pl₁ hseat, List.nil_append, List.length_singleton, hout] at hcopy
  have hland := hwalk.landing
  rw [stub, landing_array_new hseat] at hland
  have habove : ∀ e, e.length ≤ (m :: q).length →
      (copyOver mark (m :: q ++ [.ofIndex 0]) r (pl₁.record (m :: q ++ [.ofIndex 0]) 1)
        (freshAlong r)).2.get? e = pl₁.get? e := by
    intro e he
    rw [get?_copyOver_of_length_le (by simp at he ⊢; omega), Placement.get?_record_of_ne]
    rintro rfl
    simp at he
  rw [h.tree, hchain, stub, hcopy]
  refine ⟨rfl, ⟨rfl, hleads.congr habove, ?_, hbelow, ?_⟩, _, hland⟩
  · change (copyOver mark (m :: q ++ [.ofIndex 0]) r _ (freshAlong r)).2.get? _ = some 1
    rw [get?_copyOver_self, Placement.get?_record_self, hfree, Option.getD_none]
  · change (copyOver mark (m :: q ++ [.ofIndex 0]) r _ (freshAlong r)).2.get? _ = none
    rw [get?_copyOver_of_length_le (by simp), Placement.get?_record_of_ne, hfree]
    simp

/-- A copy that goes into the element at the index 1 goes on from there. -/
lemma Displaced.walk (h : Displaced m q r pl t) {s : Segment}
    (hfirst : (pl.get? (m :: q ++ [s])).or s.index? = some 1) : ∃ pl₁,
      Walk pl [] (m :: q ++ [s]) r t (chain r mark) pl₁
        (fun x => .map [(m.key, chain q (.array [.null, x]))])
        (m :: q.map Segment.leading ++ [.ofIndex 1]) ∧
      pl₁.get? (m :: q ++ [s]) = some 1 ∧ LeadsFirst pl₁ [m] q := by
  obtain ⟨pl₁, hwalk, hleads⟩ :=
    walk_root (s :: r) (.array [.null, chain r mark]) rfl h.way
  have hentry : pl₁.get? (m :: q ++ [s]) = pl.get? (m :: q ++ [s]) :=
    get?_of_length_lt (by simp) hwalk.entries
  have hseat : seat? pl₁ ([] ++ m :: q ++ [s]) s r [.null, chain r mark] = some 1 := by
    have hready : ready r (chain r mark) = true := by
      have := ready_chain (ready_nil mark) r
      rwa [List.append_nil] at this
    rw [seat?, slot?, List.nil_append, hentry, hfirst, Option.filter_some]
    simp [hready]
  have hself : (pl₁.record (m :: q ++ [s]) 1).get? (m :: q ++ [s]) = some 1 :=
    get?_record_of_seat? hseat
  have hconcat := hwalk.concat (step_array_reused hseat)
  rw [Placement.seat, List.nil_append, hself] at hconcat
  rw [h.tree]
  refine ⟨_, hconcat, hself, hleads.congr fun e he => Placement.get?_record_of_ne _ ?_ _⟩
  rintro rfl
  simp at he

/-- The second copy, made again. -/
lemma Displaced.again (h : Displaced m q r pl t) :
    (copyOver mark [] (m :: q ++ .ofIndex 0 :: r) pl t).1.error = none ∧
      Displaced m q r (copyOver mark [] (m :: q ++ .ofIndex 0 :: r) pl t).2
        (copyOver mark [] (m :: q ++ .ofIndex 0 :: r) pl t).1.tree := by
  obtain ⟨pl₁, hwalk, hself, hway⟩ := h.walk (s := .ofIndex 0) (by rw [h.element, Option.some_or])
  have hbelow : LeadsFirst pl₁ (m :: q ++ [.ofIndex 0]) r := by
    intro e s hpre hs
    rw [get?_of_length_lt (by simp) hwalk.entries]
    exact h.below e s hpre hs
  obtain ⟨pl₂, hwalk', hbelow'⟩ := walk_chain [] mark (ready_nil mark) hbelow
  have hcopy := hwalk.copy mark
  have hcopy' := hwalk'.copy mark
  rw [List.append_nil] at hcopy'
  rw [List.nil_append, hcopy', copyOver_nil, ← List.append_cons] at hcopy
  rw [hcopy]
  refine ⟨rfl, rfl, ?_, ?_, hbelow', ?_⟩
  · refine hway.congr fun e he => hwalk'.get?_eq ?_
    simp at he ⊢
    omega
  · exact (hwalk'.get?_eq le_rfl).trans hself
  · rw [hwalk'.get?_eq (by simp), hwalk.entries, h.free]
    rintro e - hpre heq
    rw [List.nil_append] at heq
    rw [← heq] at hpre
    have hlast := List.append_cancel_left (hpre.eq_of_length (by simp))
    exact absurd (Segment.ofIndex_injective (List.cons.inj hlast).1) (by simp)

/-- The third copy lands in the element of the second. -/
lemma Displaced.landing (h : Displaced m q r pl t) :
    ∃ d, Tree.landing [] (m :: q ++ .ofIndex 1 :: r) pl t
      = m :: q.map Segment.leading ++ .ofIndex 1 :: d := by
  obtain ⟨pl₁, hwalk, -, -⟩ := h.walk (s := .ofIndex 1)
    (by rw [h.free, Option.none_or, Segment.index?_ofIndex_one])
  have hland := hwalk.landing
  rw [← List.append_cons, ← List.append_cons] at hland
  exact ⟨_, hland⟩

end

end Tree

end DocumentPath
