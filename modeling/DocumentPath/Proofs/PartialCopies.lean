import Mathlib
import DocumentPath.Proofs.Landings

/-!
# Partly copied trees

What the destination and the placement look like after some locations of a source have been copied.
`Tree.PartialCopy pl w S c d` relates a source node `c`, the set `S` of the locations below it that have
been copied, and what stands for it at the destination: a copied node stands there whole; an array stands
there with those elements only that lead to a copied location, in their order and closed up; and any other
node stands there as a map with those fields only that lead to a copied location.  The placement holds the
positions of the elements of arrays, and nothing else.

Copying one more location keeps the relation (`PartialCopy.copyOver`), provided that the locations come in
the order of `Tree.Precedes` and that no key of the source names an index.  The three things that a step
can do in this situation are listed once, in `PartialCopy.step`.
-/

namespace DocumentPath

/-- What of a set of locations lies below the child that a segment names, seen from that child. -/
def under (S : Set (List Segment)) (s : Segment) : Set (List Segment) := {q | s :: q ∈ S}

/-- What is visited under a segment is visited behind it. -/
lemma mem_under {S : Set (List Segment)} {s : Segment} {q : List Segment} :
    q ∈ under S s ↔ s :: q ∈ S := Iff.rfl

/-- A visit behind a segment is one under it. -/
lemma under_insert_self (S : Set (List Segment)) (s : Segment) (p : List Segment) :
    under (insert (s :: p) S) s = insert p (under S s) := by
  ext q
  simp [mem_under, Set.mem_insert_iff]

/-- A visit behind a segment is none under another. -/
lemma under_insert_of_ne (S : Set (List Segment)) {s s' : Segment} (h : s' ≠ s) (p : List Segment) :
    under (insert (s :: p) S) s' = under S s' := by
  ext q
  simp [mem_under, Set.mem_insert_iff, h]

/-- The children that a larger set of locations leads to. -/
lemma exists_cons_mem_insert_iff {S : Set (List Segment)} {s s' : Segment} {p : List Segment} :
    (∃ q, s' :: q ∈ insert (s :: p) S) ↔ s' = s ∨ ∃ q, s' :: q ∈ S := by
  constructor
  · rintro ⟨q, hq⟩
    rcases Set.mem_insert_iff.mp hq with heq | hmem
    · exact .inl (List.cons.inj heq).1
    · exact .inr ⟨q, hmem⟩
  · rintro (rfl | ⟨q, hq⟩)
    · exact ⟨p, Set.mem_insert _ _⟩
    · exact ⟨q, Set.mem_insert_of_mem _ hq⟩

/-- Two different segments do not begin alike. -/
lemma not_singleton_isPrefix_singleton {s s' : Segment} (h : s' ≠ s) : ¬ [s] <+: [s'] :=
  fun hpre => h (List.cons_prefix_cons.mp hpre).1.symm

namespace Placement

/-- What is recorded for visits is recorded for those under a segment. -/
lemma Recorded.under {pl : Placement} {w : List Segment} {S : Set (List Segment)}
    (h : pl.Recorded w S) (s : Segment) : pl.Recorded (w ++ [s]) (under S s) := by
  intro e k he hk
  rw [List.append_assoc] at hk
  obtain ⟨q, hq, hpre⟩ := h (s :: e) k (by simp) hk
  obtain ⟨r, rfl⟩ := hpre
  exact ⟨e ++ r, hq, List.prefix_append e r⟩

/-- Nothing is placed on the way to a child that no location leads to. -/
lemma Recorded.get?_eq_none {pl : Placement} {w : List Segment} {S : Set (List Segment)}
    (h : pl.Recorded w S) {s : Segment} (hs : ¬ ∃ q, s :: q ∈ S) (e : List Segment) :
    pl.get? (w ++ s :: e) = none := by
  cases hk : pl.get? (w ++ s :: e) with
  | none => rfl
  | some k =>
    obtain ⟨q, hq, r, rfl⟩ := h (s :: e) k (by simp) hk
    exact absurd ⟨e ++ r, hq⟩ hs

/-- Recording what is on record changes nothing. -/
lemma record_eq_self {pl : Placement} {e : List Segment} {k : ℕ} (h : pl.get? e = some k) (i : ℕ) :
    pl.record e i = pl := by
  rw [record, h]

end Placement

namespace Tree

/-- A node `d` of a destination that stands for the source node `c` at `w`, after the locations `S` below
that node have been copied. -/
inductive PartialCopy (pl : Placement) :
    List Segment → Set (List Segment) → Tree → Tree → Prop
  /-- The node itself has been copied. -/
  | whole {w : List Segment} {S : Set (List Segment)} {c : Tree} (hroot : [] ∈ S) :
    PartialCopy pl w S c c
  /-- The elements `kept` of an array have been copied or gone into, and nothing else. -/
  | array {w : List Segment} {S : Set (List Segment)} {items ds : List Tree} (kept : List ℕ)
    (hroot : [] ∉ S) (hsorted : kept.Pairwise (· < ·)) (hlen : kept.length = ds.length)
    (hvisited : ∀ s, (∃ q, s :: q ∈ S) ↔ ∃ i ∈ kept, s = .ofIndex i)
    (hitems : ∀ i ∈ kept, i < items.length)
    (hslot : ∀ k i : ℕ, kept[k]? = some i → pl.get? (w ++ [.ofIndex i]) = some k)
    (hbelow : ∀ (k i : ℕ) (c d : Tree), kept[k]? = some i → items[i]? = some c → ds[k]? = some d →
      PartialCopy pl (w ++ [.ofIndex i]) (under S (.ofIndex i)) c d) :
    PartialCopy pl w S (.array items) (.array ds)
  /-- The fields of a map have been copied or gone into, and nothing else.  Only the root of the
  destination can be a map where the source has something else. -/
  | fields {w : List Segment} {S : Set (List Segment)} {c : Tree} {ds : List (String × Tree)}
    (hroot : [] ∉ S) (hkind : w = [] ∨ c.kind = .map) (hdistinct : Entries.Distinct ds)
    (hvisited : ∀ s : Segment, (∃ q, s :: q ∈ S) ↔ (Entries.get? ds s.key).isSome)
    (hchild : ∀ s : Segment, (Entries.get? ds s.key).isSome → (c.child? s).isSome)
    (hslot : ∀ s : Segment, pl.get? (w ++ [s]) = none)
    (hbelow : ∀ (s : Segment) (c' d : Tree), c.child? s = some c' →
      Entries.get? ds s.key = some d → PartialCopy pl (w ++ [s]) (under S s) c' d) :
    PartialCopy pl w S c (.map ds)

namespace PartialCopy

variable {pl pl' : Placement} {w : List Segment} {S : Set (List Segment)} {c d : Tree}

/-- Only what is placed below the node matters. -/
theorem congr (h : PartialCopy pl w S c d)
    (hpl : ∀ e, e ≠ [] → pl'.get? (w ++ e) = pl.get? (w ++ e)) : PartialCopy pl' w S c d := by
  induction h with
  | whole hroot => exact .whole hroot
  | @array w S items ds kept hroot hsorted hlen hvisited hitems hslot hbelow ih =>
    refine .array kept hroot hsorted hlen hvisited hitems ?_ ?_
    · intro k i hk
      rw [hpl _ (by simp)]
      exact hslot k i hk
    · intro k i c d hk hc hd
      refine ih k i c d hk hc hd fun e _ => ?_
      rw [List.append_assoc]
      exact hpl _ (by simp)
  | @fields w S c ds hroot hkind hdistinct hvisited hchild hslot hbelow ih =>
    refine .fields hroot hkind hdistinct hvisited hchild ?_ ?_
    · intro s
      rw [hpl _ (by simp)]
      exact hslot s
    · intro s c' d hc hd
      refine ih s c' d hc hd fun e _ => ?_
      rw [List.append_assoc]
      exact hpl _ (by simp)

/-- What stands for another child than the one gone into goes on standing for it. -/
lemma congr_beside {s s' : Segment} {rest : List Segment} (hne : s' ≠ s)
    (hframe : ∀ e, e ≠ [] → ¬ [s] <+: e → pl'.get? (w ++ e) = pl.get? (w ++ e))
    (h : PartialCopy pl (w ++ [s']) (under S s') c d) :
    PartialCopy pl' (w ++ [s']) (under (insert (s :: rest) S) s') c d := by
  rw [under_insert_of_ne S hne]
  refine h.congr fun e _ => ?_
  rw [List.append_assoc]
  exact hframe _ (by simp) fun hpre => hne (List.cons_prefix_cons.mp hpre).1.symm

/-- A node that has been gone into but not copied is a container. -/
lemma isContainer (h : PartialCopy pl w S c d) (hroot : [] ∉ S) : d.isContainer = true := by
  cases h with
  | whole hmem => exact absurd hmem hroot
  | array => rfl
  | fields => rfl

/-- What a copy puts where there is nothing stands for a node from which nothing has been copied. -/
lemma fresh (hk : c.PlainKeys) (hrec : pl.Recorded w ∅) {s : Segment} {c' : Tree}
    (hchild : c.child? s = some c') : PartialCopy pl w ∅ c (freshFor s) := by
  have hnone : ∀ s : Segment, pl.get? (w ++ [s]) = none := fun s =>
    hrec.get?_eq_none (s := s) (by simp) []
  cases c with
  | array items =>
    have hindex : s.isIndex = true := by
      obtain ⟨i, hi, -⟩ := Option.bind_eq_some_iff.mp hchild
      rw [Segment.isIndex, hi, Option.isSome_some]
    unfold freshFor
    rw [if_pos hindex]
    exact .array [] (by simp) List.Pairwise.nil rfl (by simp) (by simp) (by simp) (by simp)
  | map fields =>
    unfold freshFor
    rw [hk.isIndex_eq_false hchild, if_neg Bool.false_ne_true]
    exact .fields (by simp) (.inr rfl) List.nodup_nil (by simp) (by simp) hnone (by simp)
  | null | bool | number | text => exact absurd hchild (by simp [child?])

/-! ### One step of a copy -/

/-- A location that the copied ones precede lies below none of them. -/
lemma nil_notMem {s : Segment} {rest : List Segment}
    (hprec : ∀ q ∈ S, Precedes c q (s :: rest)) : [] ∉ S :=
  fun h => (hprec [] h).1 List.nil_prefix

/-- Below a child the copied locations precede the rest of the path. -/
lemma precedes_under {s : Segment} {rest : List Segment} {c' : Tree}
    (hchild : c.child? s = some c') (hprec : ∀ q ∈ S, Precedes c q (s :: rest)) :
    ∀ q ∈ under S s, Precedes c' q rest := by
  intro q hq
  obtain ⟨hpre, hidx⟩ := hprec (s :: q) hq
  refine ⟨fun h => hpre (List.cons_prefix_cons.mpr ⟨rfl, h⟩), ?_⟩
  intro u x y i j items hu hx hy hp hr
  exact hidx (s :: u) x y i j items (at?_cons_eq_some_iff.mpr ⟨c', hchild, hu⟩) hx hy
    (List.cons_prefix_cons.mpr ⟨rfl, hp⟩) (List.cons_prefix_cons.mpr ⟨rfl, hr⟩)

/-- The elements that have been gone into come before one that has not, if their locations do. -/
lemma lt_of_unvisited {items : List Tree} {i j : ℕ} {rest : List Segment}
    (hc : (Tree.array items).WellFormed) (hi : i < items.length) (hj : j < items.length)
    (hprec : ∀ q ∈ S, Precedes (.array items) q (.ofIndex i :: rest))
    (hunvisited : ¬ ∃ q, .ofIndex i :: q ∈ S) (hvisited : ∃ q, .ofIndex j :: q ∈ S) : j < i := by
  have hsound : items.length ≤ Segment.indexBound := hc.sound
  obtain ⟨q, hq⟩ := hvisited
  have hle : j ≤ i := (hprec _ hq).2 [] (.ofIndex j) (.ofIndex i) j i items rfl
    (Segment.index?_ofIndex (hj.trans_le hsound)) (Segment.index?_ofIndex (hi.trans_le hsound))
    ⟨q, rfl⟩ ⟨rest, rfl⟩
  exact lt_of_le_of_ne hle fun heq => hunvisited ⟨q, heq ▸ hq⟩

/-- An increasing list of numbers below `n` has at most `n` elements. -/
lemma length_le_of_pairwise_lt {l : List ℕ} {n : ℕ} (hsorted : l.Pairwise (· < ·))
    (hlt : ∀ i ∈ l, i < n) : l.length ≤ n := by
  have hsub : l ⊆ List.range n := fun i hi => List.mem_range.mpr (hlt i hi)
  have hnodup : l.Nodup := hsorted.imp fun h => h.ne
  simpa using (List.subperm_of_subset hnodup hsub).length_le

/-- An element of a list with one more at its end is one from before or the new one. -/
lemma getElem?_concat_cases {α : Type} {l : List α} {a b : α} {k : ℕ}
    (h : (l ++ [a])[k]? = some b) : (k < l.length ∧ l[k]? = some b) ∨ (k = l.length ∧ b = a) := by
  rcases Nat.lt_or_ge k l.length with hlt | hge
  · rw [List.getElem?_append_left hlt] at h
    exact .inl ⟨hlt, h⟩
  · have hk : k = l.length := by
      have := (List.getElem?_eq_some_iff.mp h).1
      rw [List.length_append, List.length_singleton] at this
      omega
    rw [hk, List.getElem?_concat_length] at h
    exact .inr ⟨hk, (Option.some.inj h).symm⟩

/-- Nothing has been copied from a child that no location leads to. -/
lemma under_eq_empty {s : Segment} (h : ¬ ∃ q, s :: q ∈ S) : under S s = ∅ :=
  Set.eq_empty_iff_forall_notMem.mpr fun q hq => h ⟨q, hq⟩

/-- A step at a map goes on below a field, which stands for the child if the copy does not end there. -/
lemma step_fields {ds : List (String × Tree)} {s : Segment} {rest : List Segment} {c' v : Tree}
    (h : PartialCopy pl w S c (.map ds)) (hk : c.PlainKeys) (hrec : pl.Recorded w S)
    (hchild : c.child? s = some c') (hv : c'.at? rest = some v)
    (hprec : ∀ q ∈ S, Precedes c q (s :: rest)) :
    pl.get? (w ++ [s]) = none ∧ ready rest (fieldAlong ds s rest) = true ∧
      (rest ≠ [] → PartialCopy pl (w ++ [s]) (under S s) c' (fieldAlong ds s rest)) := by
  cases h with
  | whole hroot => exact absurd hroot (nil_notMem hprec)
  | fields hroot hkind hdistinct hvisited hchild' hslot hbelow =>
    refine ⟨hslot s, ?_⟩
    cases hget : Entries.get? ds s.key with
    | some d =>
      have hd : PartialCopy pl (w ++ [s]) (under S s) c' d := hbelow s c' d hchild hget
      rw [fieldAlong, hget, Option.getD_some]
      refine ⟨?_, fun _ => hd⟩
      cases rest with
      | nil => rfl
      | cons next rest => exact hd.isContainer (nil_notMem (precedes_under hchild hprec))
    | none =>
      rw [fieldAlong, hget, Option.getD_none]
      refine ⟨ready_freshAlong rest, fun hrest => ?_⟩
      have hunvisited : ¬ ∃ q, s :: q ∈ S := by
        rw [hvisited s, hget]
        exact Bool.false_ne_true
      have hrec' : pl.Recorded (w ++ [s]) (under S s) := hrec.under s
      obtain ⟨next, rest, rfl⟩ := List.exists_cons_of_ne_nil hrest
      obtain ⟨c'', hc'', -⟩ := at?_cons_eq_some_iff.mp hv
      rw [under_eq_empty hunvisited] at hrec' ⊢
      exact fresh (hk.child hchild) hrec' hc''

/-- A step at an array goes on below the element that is on record, which stands for the child if the
copy does not end there, or else below a new element after all others. -/
lemma step_array {items ds : List Tree} {i : ℕ} {rest : List Segment} {c' v : Tree}
    (h : PartialCopy pl w S (.array items) (.array ds)) (hc : (Tree.array items).WellFormed)
    (hk : (Tree.array items).PlainKeys) (hrec : pl.Recorded w S) (hitem : items[i]? = some c')
    (hchild : (Tree.array items).child? (.ofIndex i) = some c') (hv : c'.at? rest = some v)
    (hprec : ∀ q ∈ S, Precedes (.array items) q (.ofIndex i :: rest)) :
    (∃ k, seat? pl (w ++ [.ofIndex i]) (.ofIndex i) rest ds = some k ∧
        pl.get? (w ++ [.ofIndex i]) = some k ∧ (∃ q, .ofIndex i :: q ∈ S) ∧
        (rest ≠ [] → PartialCopy pl (w ++ [.ofIndex i]) (under S (.ofIndex i)) c'
          (ds[k]?.getD .null)))
    ∨ (seat? pl (w ++ [.ofIndex i]) (.ofIndex i) rest ds = none ∧ (¬ ∃ q, .ofIndex i :: q ∈ S) ∧
        (rest ≠ [] → PartialCopy (pl.record (w ++ [.ofIndex i]) ds.length) (w ++ [.ofIndex i])
          (under S (.ofIndex i)) c' (freshAlong rest))) := by
  have hi : i < items.length := (List.getElem?_eq_some_iff.mp hitem).1
  have hsound : items.length ≤ Segment.indexBound := hc.sound
  cases h with
  | whole hroot => exact absurd hroot (nil_notMem hprec)
  | array kept hroot hsorted hlen hvisited hitems hslot hbelow =>
    by_cases hmem : i ∈ kept
    · obtain ⟨k, hk⟩ := List.getElem?_of_mem hmem
      have hklt : k < ds.length := hlen ▸ (List.getElem?_eq_some_iff.mp hk).1
      have hget : ds[k]? = some ds[k] := List.getElem?_eq_getElem hklt
      have hd : PartialCopy pl (w ++ [.ofIndex i]) (under S (.ofIndex i)) c' ds[k] :=
        hbelow k i c' ds[k] hk hitem hget
      refine .inl ⟨k, ?_, hslot k i hk, (hvisited _).mpr ⟨i, hmem, rfl⟩, fun _ => ?_⟩
      · have hready : ready rest ds[k] = true := by
          cases rest with
          | nil => rfl
          | cons next rest => exact hd.isContainer (nil_notMem (precedes_under hchild hprec))
        rw [seat?, slot?, hslot k i hk, Option.some_or, Option.filter_some, hget, Option.map_some,
          Option.getD_some, if_pos hready]
      · rw [hget, Option.getD_some]
        exact hd
    · have hunvisited : ¬ ∃ q, .ofIndex i :: q ∈ S := by
        rw [hvisited]
        rintro ⟨j, hj, hij⟩
        exact hmem (Segment.ofIndex_injective hij ▸ hj)
      -- the elements on record come before it, so that none stands at its own index
      have hlength : ds.length ≤ i := hlen ▸ length_le_of_pairwise_lt hsorted fun j hj =>
        lt_of_unvisited hc hi (hitems j hj) hprec hunvisited ((hvisited _).mpr ⟨j, hj, rfl⟩)
      refine .inr ⟨?_, hunvisited, fun hrest => ?_⟩
      · have hunrecorded : pl.get? (w ++ [.ofIndex i]) = none := hrec.get?_eq_none hunvisited []
        rw [seat?, slot?, hunrecorded, Option.none_or, Segment.index?_ofIndex (hi.trans_le hsound),
          Option.filter_some, List.getElem?_eq_none hlength, Option.map_none, Option.getD_none,
          if_neg Bool.false_ne_true]
      · have hrec' : pl.Recorded (w ++ [.ofIndex i]) (under S (.ofIndex i)) := hrec.under _
        obtain ⟨next, rest, rfl⟩ := List.exists_cons_of_ne_nil hrest
        obtain ⟨c'', hc'', -⟩ := at?_cons_eq_some_iff.mp hv
        rw [under_eq_empty hunvisited] at hrec' ⊢
        refine fresh (hk.child hchild) ?_ hc''
        intro e k he hk
        rw [Placement.get?_record_of_ne _ (by simpa using he)] at hk
        exact hrec' e k he hk

/-! ### What a step leaves -/

/-- A map with one more field copied or gone into. -/
lemma insertField {ds : List (String × Tree)} {s : Segment} {rest : List Segment} {c' x : Tree}
    (h : PartialCopy pl w S c (.map ds)) (hroot : [] ∉ S) (hchild : c.child? s = some c')
    (hself : pl'.get? (w ++ [s]) = none)
    (hframe : ∀ e, e ≠ [] → ¬ [s] <+: e → pl'.get? (w ++ e) = pl.get? (w ++ e))
    (hx : PartialCopy pl' (w ++ [s]) (insert rest (under S s)) c' x) :
    PartialCopy pl' w (insert (s :: rest) S) c (.map (Entries.insert ds s.key x)) := by
  cases h with
  | whole hmem => exact absurd hmem hroot
  | fields _ hkind hdistinct hvisited hchild' hslot hbelow =>
    have hget : ∀ s' : Segment, s' ≠ s →
        Entries.get? (Entries.insert ds s.key x) s'.key = Entries.get? ds s'.key := by
      intro s' hne
      refine Entries.get?_insert_of_ne _ (fun heq => hne ?_) _
      exact congrArg Segment.mk heq.symm
    refine .fields ?_ hkind (Entries.distinct_insert hdistinct _ _) ?_ ?_ ?_ ?_
    · simpa using hroot
    · intro s'
      rw [exists_cons_mem_insert_iff]
      by_cases hs : s' = s
      · simp [hs]
      · rw [hget s' hs, ← hvisited s']
        simp [hs]
    · intro s' hsome
      by_cases hs : s' = s
      · rw [hs, hchild, Option.isSome_some]
      · rw [hget s' hs] at hsome
        exact hchild' s' hsome
    · intro s'
      by_cases hs : s' = s
      · rw [hs, hself]
      · rw [hframe _ (by simp) (not_singleton_isPrefix_singleton hs), hslot s']
    · intro s' c₀ d hc₀ hd
      by_cases hs : s' = s
      · subst hs
        rw [Entries.get?_insert_self] at hd
        rw [under_insert_self, ← Option.some.inj hd, ← Option.some.inj (hchild.symm.trans hc₀)]
        exact hx
      · rw [hget s' hs] at hd
        exact congr_beside hs hframe (hbelow s' c₀ d hc₀ hd)

/-- An array with one more location copied from an element that is on record. -/
lemma setElement {items ds : List Tree} {i k : ℕ} {rest : List Segment} {c' x : Tree}
    (h : PartialCopy pl w S (.array items) (.array ds)) (hroot : [] ∉ S)
    (hitem : items[i]? = some c') (hvisit : ∃ q, .ofIndex i :: q ∈ S)
    (hrecord : pl.get? (w ++ [.ofIndex i]) = some k)
    (hself : pl'.get? (w ++ [.ofIndex i]) = some k)
    (hframe : ∀ e, e ≠ [] → ¬ [.ofIndex i] <+: e → pl'.get? (w ++ e) = pl.get? (w ++ e))
    (hx : PartialCopy pl' (w ++ [.ofIndex i]) (insert rest (under S (.ofIndex i))) c' x) :
    PartialCopy pl' w (insert (.ofIndex i :: rest) S) (.array items) (.array (ds.set k x)) := by
  cases h with
  | whole hmem => exact absurd hmem hroot
  | array kept _ hsorted hlen hvisited hitems hslot hbelow =>
    -- the position of an element is what is on record for it
    have hposition : ∀ {k'}, kept[k']? = some i → k' = k := fun hk' =>
      Option.some.inj ((hslot _ i hk').symm.trans hrecord)
    have hk : kept[k]? = some i := by
      obtain ⟨j, hj, hij⟩ := (hvisited _).mp hvisit
      obtain ⟨k', hk'⟩ := List.getElem?_of_mem hj
      rw [← Segment.ofIndex_injective hij] at hk'
      exact hposition hk' ▸ hk'
    have hbeside : ∀ {j : ℕ}, j ≠ i → (Segment.ofIndex j) ≠ .ofIndex i :=
      fun hne heq => hne (Segment.ofIndex_injective heq)
    refine .array kept ?_ hsorted ?_ ?_ hitems ?_ ?_
    · simpa using hroot
    · rw [hlen, List.length_set]
    · intro s
      rw [exists_cons_mem_insert_iff, hvisited s, or_iff_right_iff_imp]
      exact fun hs => ⟨i, List.mem_of_getElem? hk, hs⟩
    · intro k' j hk'
      by_cases hj : j = i
      · subst hj
        rw [hself, hposition hk']
      · rw [hframe _ (by simp) (not_singleton_isPrefix_singleton (hbeside hj)), hslot k' j hk']
    · intro k' j c₀ d hk' hc₀ hd
      by_cases hj : j = i
      · subst hj
        rw [hposition hk', List.getElem?_set_self] at hd
        · rw [under_insert_self, ← Option.some.inj hd, ← Option.some.inj (hitem.symm.trans hc₀)]
          exact hx
        · exact hlen ▸ (List.getElem?_eq_some_iff.mp hk).1
      · have hne : k ≠ k' := by
          rintro rfl
          exact hj (Option.some.inj (hk'.symm.trans hk))
        rw [List.getElem?_set_ne hne] at hd
        exact congr_beside (hbeside hj) hframe (hbelow k' j c₀ d hk' hc₀ hd)

/-- An array with the first location copied from a further element. -/
lemma pushElement {items ds : List Tree} {i : ℕ} {rest : List Segment} {c' x : Tree}
    (h : PartialCopy pl w S (.array items) (.array ds)) (hroot : [] ∉ S)
    (hc : (Tree.array items).WellFormed) (hitem : items[i]? = some c')
    (hunvisited : ¬ ∃ q, .ofIndex i :: q ∈ S)
    (hprec : ∀ q ∈ S, Precedes (.array items) q (.ofIndex i :: rest))
    (hself : pl'.get? (w ++ [.ofIndex i]) = some ds.length)
    (hframe : ∀ e, e ≠ [] → ¬ [.ofIndex i] <+: e → pl'.get? (w ++ e) = pl.get? (w ++ e))
    (hx : PartialCopy pl' (w ++ [.ofIndex i]) (insert rest (under S (.ofIndex i))) c' x) :
    PartialCopy pl' w (insert (.ofIndex i :: rest) S) (.array items) (.array (ds ++ [x])) := by
  have hi : i < items.length := (List.getElem?_eq_some_iff.mp hitem).1
  cases h with
  | whole hmem => exact absurd hmem hroot
  | array kept _ hsorted hlen hvisited hitems hslot hbelow =>
    have hlt : ∀ j ∈ kept, j < i := fun j hj =>
      lt_of_unvisited hc hi (hitems j hj) hprec hunvisited ((hvisited _).mpr ⟨j, hj, rfl⟩)
    have hbeside : ∀ {j : ℕ}, j ≠ i → (Segment.ofIndex j) ≠ .ofIndex i :=
      fun hne heq => hne (Segment.ofIndex_injective heq)
    refine .array (kept ++ [i]) ?_ ?_ ?_ ?_ ?_ ?_ ?_
    · simpa using hroot
    · rw [List.pairwise_append]
      refine ⟨hsorted, List.pairwise_singleton _ _, fun j hj i' hi' => ?_⟩
      rw [List.mem_singleton.mp hi']
      exact hlt j hj
    · rw [List.length_append, List.length_append, hlen, List.length_singleton,
        List.length_singleton]
    · intro s
      rw [exists_cons_mem_insert_iff, hvisited s]
      simp only [List.mem_append, List.mem_singleton]
      constructor
      · rintro (hs | ⟨j, hj, hs⟩)
        · exact ⟨i, .inr rfl, hs⟩
        · exact ⟨j, .inl hj, hs⟩
      · rintro ⟨j, hj | hj, hs⟩
        · exact .inr ⟨j, hj, hs⟩
        · exact .inl (hj ▸ hs)
    · intro j hj
      rcases List.mem_append.mp hj with hj | hj
      · exact hitems j hj
      · exact List.mem_singleton.mp hj ▸ hi
    · intro k j hk
      rcases getElem?_concat_cases hk with ⟨-, hk⟩ | ⟨rfl, rfl⟩
      · have hj := hbeside (hlt j (List.mem_of_getElem? hk)).ne
        rw [hframe _ (by simp) (not_singleton_isPrefix_singleton hj), hslot k j hk]
      · rw [hself, hlen]
    · intro k j c₀ d hk hc₀ hd
      rcases getElem?_concat_cases hk with ⟨hklt, hk⟩ | ⟨rfl, rfl⟩
      · rw [List.getElem?_append_left (hlen ▸ hklt)] at hd
        have hj := hbeside (hlt j (List.mem_of_getElem? hk)).ne
        exact congr_beside hj hframe (hbelow k j c₀ d hk hc₀ hd)
      · rw [hlen, List.getElem?_concat_length] at hd
        rw [under_insert_self, ← Option.some.inj hd, ← Option.some.inj (hitem.symm.trans hc₀)]
        exact hx

/-! ### A whole copy -/

/-- A copy below a child changes nothing of what is placed on other ways. -/
lemma get?_copyOver_apart {v t : Tree} {s : Segment} {rest e : List Segment} (hs : ¬ [s] <+: e) :
    (Tree.copyOver v (w ++ [s]) rest pl t).2.get? (w ++ e) = pl.get? (w ++ e) := by
  refine get?_copyOver_off_path fun r _ _ heq => hs ?_
  rw [List.append_assoc] at heq
  exact ⟨r, (List.append_cancel_left heq).symm⟩

/-- A step of a copy at a partly copied node. -/
structure GoesOn (pl : Placement) (w : List Segment) (S : Set (List Segment)) (c d : Tree)
    (s : Segment) (rest : List Segment) (c' t : Tree) (pl₁ : Placement) (put : Tree → Tree) : Prop
    extends Step pl w s rest d t pl₁ put where
  /-- If there was a copy from the child before, it has not been placed anew. -/
  visited : (∃ q, s :: q ∈ S) → pl₁ = pl
  /-- The node stands for the child, unless the copy puts the copied node there. -/
  stands : rest ≠ [] → PartialCopy pl₁ (w ++ [s]) (under S s) c' t
  /-- With the outcome put back the node stands for the source node with one location more. -/
  back : ∀ pl' x, pl'.get? (w ++ [s]) = pl₁.get? (w ++ [s]) →
    (∀ e, ¬ [s] <+: e → pl'.get? (w ++ e) = pl₁.get? (w ++ e)) →
    PartialCopy pl' (w ++ [s]) (insert rest (under S s)) c' x →
    PartialCopy pl' w (insert (s :: rest) S) c (put x)

/-- A copy of a location that the copied ones precede goes on below the child. -/
theorem step {s : Segment} {rest : List Segment} {c' v : Tree} (h : PartialCopy pl w S c d)
    (hc : c.WellFormed) (hk : c.PlainKeys) (hrec : pl.Recorded w S)
    (hchild : c.child? s = some c') (hv : c'.at? rest = some v)
    (hprec : ∀ q ∈ S, Precedes c q (s :: rest)) :
    ∃ t pl₁ put, GoesOn pl w S c d s rest c' t pl₁ put := by
  have hroot : [] ∉ S := nil_notMem hprec
  cases d with
  | map ds =>
    obtain ⟨hself, hready, hbelow⟩ := step_fields h hk hrec hchild hv hprec
    refine ⟨_, _, _, step_map hready hself, fun _ => rfl, hbelow, ?_⟩
    exact fun pl' x hs hframe hx =>
      insertField h hroot hchild (hs.trans hself) (fun e _ he => hframe e he) hx
  | array ds =>
    cases c with
    | array items =>
      obtain ⟨i, hi, hitem⟩ := Option.bind_eq_some_iff.mp hchild
      obtain rfl := Segment.eq_ofIndex_of_index? hi
      rcases step_array h hc hk hrec hitem hchild hv hprec with
        ⟨k, hseat, hrecord, hvisit, hbelow⟩ | ⟨hseat, hunvisited, hbelow⟩
      · have hgo := step_array_reused hseat
        rw [Placement.record_eq_self hrecord] at hgo
        refine ⟨_, _, _, hgo, fun _ => rfl, hbelow, ?_⟩
        exact fun pl' x hs hframe hx => setElement h hroot hitem hvisit hrecord
          (hs.trans hrecord) (fun e _ he => hframe e he) hx
      · have hunrecorded : pl.get? (w ++ [.ofIndex i]) = none := hrec.get?_eq_none hunvisited []
        have hgo := step_array_new hseat hunrecorded
        refine ⟨_, _, _, hgo, fun hvisit => absurd hvisit hunvisited, hbelow, ?_⟩
        intro pl' x hs hframe hx
        rw [Placement.get?_record_self, hunrecorded, Option.getD_none] at hs
        refine pushElement h hroot hc hitem hunvisited hprec hs (fun e _ he => ?_) hx
        refine (hframe e he).trans (hgo.entries _ fun heq => he ?_)
        exact List.append_cancel_left heq ▸ List.prefix_rfl
    | map fields => cases h
    | null | bool | number | text => exact absurd hchild (by simp [child?])
  | null | bool | number | text => exact absurd (h.isContainer hroot) Bool.false_ne_true

/-- Below the child the elements on record lie on the way to copied locations. -/
lemma GoesOn.recorded {s : Segment} {rest : List Segment} {c' t : Tree} {pl₁ : Placement}
    {put : Tree → Tree} (h : GoesOn pl w S c d s rest c' t pl₁ put) (hrec : pl.Recorded w S) :
    pl₁.Recorded (w ++ [s]) (under S s) := by
  intro e k he hek
  rw [h.below he] at hek
  exact hrec.under s e k he hek

/-- Copying a location that the copied ones precede succeeds, and the location is among the copied ones
thereafter. -/
theorem copyOver {v : Tree} {p : List Segment} (h : p ≠ [] → PartialCopy pl w S c d)
    (hc : c.WellFormed) (hk : c.PlainKeys) (hrec : pl.Recorded w S) (hv : c.at? p = some v)
    (hprec : ∀ q ∈ S, Precedes c q p) :
    (Tree.copyOver v w p pl d).1.error = none ∧
      PartialCopy (Tree.copyOver v w p pl d).2 w (insert p S) c (Tree.copyOver v w p pl d).1.tree := by
  induction p generalizing pl w S c d with
  | nil =>
    rw [copyOver_nil, ← Option.some.inj hv]
    exact ⟨rfl, .whole (Set.mem_insert _ _)⟩
  | cons s rest ih =>
    obtain ⟨c', hchild, hv'⟩ := at?_cons_eq_some_iff.mp hv
    obtain ⟨t, pl₁, put, hgo⟩ := step (h (by simp)) hc hk hrec hchild hv' hprec
    obtain ⟨hok, hx⟩ := ih hgo.stands (hc.child hchild) (hk.child hchild) (hgo.recorded hrec) hv'
      (precedes_under hchild hprec)
    rw [hgo.copy v]
    exact ⟨hok, hgo.back _ _ (get?_copyOver_self v t w s rest pl₁)
      (fun e he => get?_copyOver_apart he) hx⟩

/-- A copy lands where the placement says thereafter. -/
theorem landing_eq_route {v : Tree} {p : List Segment} (h : p ≠ [] → PartialCopy pl w S c d)
    (hc : c.WellFormed) (hk : c.PlainKeys) (hrec : pl.Recorded w S) (hv : c.at? p = some v)
    (hprec : ∀ q ∈ S, Precedes c q p) :
    landing w p pl d = (Tree.copyOver v w p pl d).2.route w p := by
  induction p generalizing pl w S c d with
  | nil => rfl
  | cons s rest ih =>
    obtain ⟨c', hchild, hv'⟩ := at?_cons_eq_some_iff.mp hv
    obtain ⟨t, pl₁, put, hgo⟩ := step (h (by simp)) hc hk hrec hchild hv' hprec
    rw [hgo.landing, hgo.copy v, Placement.route, Placement.seat, Placement.seat,
      get?_copyOver_self, ih hgo.stands (hc.child hchild) (hk.child hchild) (hgo.recorded hrec) hv'
        (precedes_under hchild hprec)]

/-- A copy leaves what is on record on the ways to the locations that have been copied. -/
theorem get?_copyOver_of_visited {v : Tree} {p q e : List Segment}
    (h : p ≠ [] → PartialCopy pl w S c d) (hc : c.WellFormed) (hk : c.PlainKeys)
    (hrec : pl.Recorded w S) (hv : c.at? p = some v) (hprec : ∀ q ∈ S, Precedes c q p) (hq : q ∈ S)
    (he : e ≠ []) (hpre : e <+: q) :
    (Tree.copyOver v w p pl d).2.get? (w ++ e) = pl.get? (w ++ e) := by
  induction p generalizing pl w S c d q e with
  | nil => rfl
  | cons s rest ih =>
    obtain ⟨c', hchild, hv'⟩ := at?_cons_eq_some_iff.mp hv
    obtain ⟨t, pl₁, put, hgo⟩ := step (h (by simp)) hc hk hrec hchild hv' hprec
    rw [hgo.copy v]
    by_cases hs : [s] <+: e
    · obtain ⟨e', rfl⟩ := hs
      obtain ⟨q', rfl⟩ := hpre
      have hpl : pl₁ = pl := hgo.visited ⟨e' ++ q', hq⟩
      rw [← List.append_assoc]
      cases e' with
      | nil =>
        rw [List.append_nil, get?_copyOver_self, hpl]
      | cons x e' =>
        rw [ih hgo.stands (hc.child hchild) (hk.child hchild) (hgo.recorded hrec) hv'
          (precedes_under hchild hprec) (q := x :: e' ++ q') hq (by simp) ⟨q', rfl⟩, hpl]
    · rw [get?_copyOver_apart hs]
      exact hgo.entries _ fun heq => hs (List.append_cancel_left heq ▸ List.prefix_rfl)

/-- Different children that have been gone into stand in different places. -/
theorem seat_ne (h : PartialCopy pl w S c d) {e q r : List Segment} {s s' : Segment}
    (hq : e ++ s :: q ∈ S) (hq' : e ++ s' :: r ∈ S) (hne : s ≠ s') (hnot : ∀ x ∈ S, ¬ x <+: e) :
    pl.seat (w ++ e) s ≠ pl.seat (w ++ e) s' := by
  induction e generalizing w S c d with
  | nil =>
    rw [List.append_nil]
    cases h with
    | whole hroot => exact absurd List.nil_prefix (hnot [] hroot)
    | array kept hroot hsorted hlen hvisited hitems hslot hbelow =>
      obtain ⟨i, hi, rfl⟩ := (hvisited s).mp ⟨q, hq⟩
      obtain ⟨j, hj, rfl⟩ := (hvisited s').mp ⟨r, hq'⟩
      obtain ⟨k, hk⟩ := List.getElem?_of_mem hi
      obtain ⟨l, hl⟩ := List.getElem?_of_mem hj
      rw [Placement.seat, Placement.seat, hslot k i hk, hslot l j hl, Option.elim_some,
        Option.elim_some]
      intro heq
      rw [Segment.ofIndex_injective heq, hl] at hk
      exact hne (congrArg Segment.ofIndex (Option.some.inj hk).symm)
    | fields hroot hkind hdistinct hvisited hchild hslot hbelow =>
      rw [Placement.seat, Placement.seat, hslot s, hslot s']
      exact hne
  | cons x e ih =>
    rw [List.append_cons]
    have hnot' : ∀ y ∈ under S x, ¬ y <+: e := fun y hy hpre =>
      hnot (x :: y) hy (List.cons_prefix_cons.mpr ⟨rfl, hpre⟩)
    cases h with
    | whole hroot => exact absurd List.nil_prefix (hnot [] hroot)
    | @array _ _ items ds kept hroot hsorted hlen hvisited hitems hslot hbelow =>
      obtain ⟨i, hi, rfl⟩ := (hvisited x).mp ⟨_, hq⟩
      obtain ⟨k, hk⟩ := List.getElem?_of_mem hi
      have hklt : k < ds.length := hlen ▸ (List.getElem?_eq_some_iff.mp hk).1
      have hilt : i < items.length := hitems i hi
      exact ih (hbelow k i items[i] ds[k] hk (List.getElem?_eq_getElem hilt)
        (List.getElem?_eq_getElem hklt)) hq hq' hnot'
    | fields hroot hkind hdistinct hvisited hchild hslot hbelow =>
      have hsome := (hvisited x).mp ⟨_, hq⟩
      obtain ⟨d', hd'⟩ := Option.isSome_iff_exists.mp hsome
      obtain ⟨c', hc'⟩ := Option.isSome_iff_exists.mp (hchild x hsome)
      exact ih (hbelow x c' d' hc' hd') hq hq' hnot'

/-- A copy into a partly copied tree keeps apart from the copies before. -/
theorem keepsApart {v : Tree} {p : List Segment} (h : PartialCopy pl [] S c d)
    (hc : c.WellFormed) (hk : c.PlainKeys) (hrec : pl.Recorded [] S) (hv : c.at? p = some v)
    (hprec : ∀ q ∈ S, Precedes c q p) :
    Pointer.KeepsApart c S p (Tree.landing [] p pl d) pl (Tree.copyOver v [] p pl d).2 := by
  refine ⟨landing_eq_route (fun _ => h) hc hk hrec hv hprec, fun q hq e he hpre =>
    get?_copyOver_of_visited (fun _ => h) hc hk hrec hv hprec hq he hpre, ?_⟩
  intro q hq w s s' items _ hs hs' hne
  obtain ⟨r, hr⟩ := hs
  obtain ⟨r', hr'⟩ := hs'
  rw [List.append_assoc] at hr hr'
  refine seat_ne (copyOver (fun _ => h) hc hk hrec hv hprec).2 (e := w) (q := r) (r := r') ?_ ?_
    hne fun x hx hpre => ?_
  · exact Set.mem_insert_of_mem _ (by rwa [show w ++ s :: r = q from hr])
  · exact Set.mem_insert_iff.mpr (.inl hr')
  · rcases Set.mem_insert_iff.mp hx with rfl | hx
    · rw [← hr'] at hpre
      have := hpre.length_le
      simp only [List.length_append, List.length_cons] at this
      omega
    · exact (hprec x hx).1 (hpre.trans ⟨s' :: r', hr'⟩)

end PartialCopy

end Tree

end DocumentPath
