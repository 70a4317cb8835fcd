import Mathlib
import DocumentPath.Proofs.PartialCopies

/-!
# Pruned trees

`Tree.prune keep t` is the tree `t` without the nodes whose locations are not kept: the elements of an
array that are kept close up in their order, and a map loses the fields that are not kept.
`Tree.Similar` is equality up to the order of the keys of maps.

A partly copied tree is similar to its source with only those nodes kept that lie at or below a copied
location, or above one (`PartialCopy.similar_prune`).
-/

namespace DocumentPath

namespace Tree

/-! ### Pruning -/

mutual

/-- The tree without the nodes whose locations are not kept. -/
def prune : (List Segment → Bool) → Tree → Tree
  | keep, .array items => .array (pruneItems keep 0 items)
  | keep, .map fields => .map (pruneFields keep fields)
  | _, t => t

/-- The items of an array that are kept, pruned; the first of them stands at index `i`. -/
def pruneItems : (List Segment → Bool) → ℕ → List Tree → List Tree
  | _, _, [] => []
  | keep, i, t :: rest =>
    if keep [.ofIndex i] then
      prune (fun q => keep (.ofIndex i :: q)) t :: pruneItems keep (i + 1) rest
    else pruneItems keep (i + 1) rest

/-- The fields of a map that are kept, pruned. -/
def pruneFields : (List Segment → Bool) → List (String × Tree) → List (String × Tree)
  | _, [] => []
  | keep, (k, t) :: rest =>
    if keep [⟨k⟩] then (k, prune (fun q => keep (⟨k⟩ :: q)) t) :: pruneFields keep rest
    else pruneFields keep rest

end

/-- Whether a location is at or below one of `hits`, or above one. -/
def keeps (hits : List (List Segment)) (q : List Segment) : Bool :=
  hits.any fun h => decide (h <+: q ∨ q <+: h)

/-- A location is kept if it lies above or below a hit. -/
lemma keeps_eq_true_iff {hits : List (List Segment)} {q : List Segment} :
    keeps hits q = true ↔ ∃ h ∈ hits, h <+: q ∨ q <+: h := by
  simp [keeps]

/-- The items of an array that are kept are pruned one by one. -/
lemma pruneItems_eq (keep : List Segment → Bool) (i : ℕ) (items : List Tree) :
    pruneItems keep i items = ((items.zipIdx i).filter fun m => keep [.ofIndex m.2]).map
      fun m => prune (fun q => keep (.ofIndex m.2 :: q)) m.1 := by
  induction items generalizing i with
  | nil => rfl
  | cons t rest ih =>
    rw [pruneItems, List.zipIdx_cons, List.filter_cons]
    cases keep [.ofIndex i] with
    | false => simpa using ih (i + 1)
    | true => simp [ih (i + 1)]

/-- The keys of a pruned map are among those of the map. -/
lemma map_fst_pruneFields_sublist (keep : List Segment → Bool) (fields : List (String × Tree)) :
    ((pruneFields keep fields).map Prod.fst).Sublist (fields.map Prod.fst) := by
  induction fields with
  | nil => exact List.Sublist.refl _
  | cons f rest ih =>
    obtain ⟨k, t⟩ := f
    rw [pruneFields]
    cases keep [⟨k⟩] with
    | false => exact ih.cons k
    | true => exact ih.cons_cons k

/-- A field of a pruned map is the field of the map, pruned, if it is kept. -/
lemma get?_pruneFields (keep : List Segment → Bool) (fields : List (String × Tree)) (s : Segment) :
    Entries.get? (pruneFields keep fields) s.key = if keep [s] then
      (Entries.get? fields s.key).map (prune fun q => keep (s :: q)) else none := by
  induction fields with
  | nil => simp [pruneFields]
  | cons f rest ih =>
    obtain ⟨k, t⟩ := f
    rw [pruneFields]
    by_cases hk : k = s.key
    · have hs : (⟨k⟩ : Segment) = s := congrArg Segment.mk hk
      rw [hs]
      cases hkeep : keep [s] with
      | false => simpa [hkeep] using ih
      | true => simp [Entries.get?, hk]
    · cases keep [⟨k⟩] with
      | false => simpa [Entries.get?, hk] using ih
      | true => simpa [Entries.get?, hk] using ih

/-- Where everything is kept, pruning changes nothing. -/
theorem prune_eq_self {keep : List Segment → Bool} (h : ∀ q, keep q = true) (t : Tree) :
    prune keep t = t := by
  induction t using byChildren generalizing keep with
  | step t ih =>
    cases t with
    | array items =>
      rw [prune, pruneItems_eq, List.filter_eq_self.mpr fun m _ => h _]
      congr 1
      conv_rhs => rw [← List.zipIdx_map_fst 0 items]
      refine List.map_congr_left fun m hm => ?_
      exact ih m.1 (List.fst_mem_of_mem_zipIdx hm) fun q => h _
    | map fields =>
      rw [prune]
      congr 1
      have hfields : ∀ fs : List (String × Tree), (∀ f ∈ fs, f ∈ fields) →
          pruneFields keep fs = fs := by
        intro fs hfs
        induction fs with
        | nil => rfl
        | cons f rest ih' =>
          obtain ⟨k, u⟩ := f
          have hmem : u ∈ (Tree.map fields).children :=
            List.mem_map_of_mem (f := Prod.snd) (hfs (k, u) List.mem_cons_self)
          rw [pruneFields, if_pos (h _), ih u hmem fun q => h _,
            ih' fun f hf => hfs f (List.mem_cons_of_mem _ hf)]
      exact hfields fields fun _ hf => hf
    | null | bool | number | text => rfl

/-! ### Equality up to the order of keys -/

/-- Equality of trees up to the order of the keys of their maps. -/
inductive Similar : Tree → Tree → Prop
  | refl (t : Tree) : Similar t t
  | array {items items' : List Tree} (hlen : items.length = items'.length)
    (hitems : ∀ (i : ℕ) (t t' : Tree), items[i]? = some t → items'[i]? = some t' → Similar t t') :
    Similar (.array items) (.array items')
  | map {fields fields' : List (String × Tree)} (hdistinct : Entries.Distinct fields)
    (hdistinct' : Entries.Distinct fields')
    (hkeys : ∀ k, (Entries.get? fields k).isSome ↔ (Entries.get? fields' k).isSome)
    (hfields : ∀ (k : String) (t t' : Tree), Entries.get? fields k = some t →
      Entries.get? fields' k = some t' → Similar t t') :
    Similar (.map fields) (.map fields')

/-- Similarity is symmetric. -/
lemma Similar.symm {t t' : Tree} (h : Similar t t') : Similar t' t := by
  induction h with
  | refl t => exact .refl t
  | array hlen _ ih => exact .array hlen.symm fun i t t' ht ht' => ih i t' t ht' ht
  | map hd hd' hkeys _ ih =>
    exact .map hd' hd (fun k => (hkeys k).symm) fun k t t' ht ht' => ih k t' t ht' ht

/-- Similarity is transitive. -/
lemma Similar.trans {t t' t'' : Tree} (h : Similar t t') (h' : Similar t' t'') : Similar t t'' := by
  induction h generalizing t'' with
  | refl t => exact h'
  | @array items items' hlen hitems ih =>
    cases h' with
    | refl => exact .array hlen hitems
    | array hlen' hitems' =>
      refine .array (hlen.trans hlen') fun i c c'' hc hc'' => ?_
      have hi : i < items'.length := hlen ▸ (List.getElem?_eq_some_iff.mp hc).1
      have hmid := List.getElem?_eq_getElem hi
      exact ih i c _ hc hmid (hitems' i _ c'' hmid hc'')
  | @map fields fields' hd hd' hkeys hfields ih =>
    cases h' with
    | refl => exact .map hd hd' hkeys hfields
    | map _ hd'' hkeys' hfields' =>
      refine .map hd hd'' (fun k => (hkeys k).trans (hkeys' k)) fun k c c'' hc hc'' => ?_
      obtain ⟨c', hmid⟩ := Option.isSome_iff_exists.mp ((hkeys k).mp (Option.isSome_of_eq_some hc))
      exact ih k c c' hc hmid (hfields' k c' c'' hmid hc'')

/-! ### Partly copied trees are pruned trees -/

/-- The locations kept below a child are those kept for the copied locations below it. -/
lemma keeps_under {keep : List Segment → Bool} {S : Set (List Segment)} (hroot : [] ∉ S)
    (hkeep : ∀ q, keep q = true ↔ ∃ h ∈ S, h <+: q ∨ q <+: h) (s : Segment) (q : List Segment) :
    keep (s :: q) = true ↔ ∃ h ∈ under S s, h <+: q ∨ q <+: h := by
  rw [hkeep]
  constructor
  · rintro ⟨h, hS, hpre⟩
    cases h with
    | nil => exact absurd hS hroot
    | cons s' h =>
      have hs : s' = s := by
        rcases hpre with hpre | hpre
        · exact (List.cons_prefix_cons.mp hpre).1
        · exact (List.cons_prefix_cons.mp hpre).1.symm
      subst hs
      refine ⟨h, hS, hpre.imp ?_ ?_⟩
      · exact fun hpre => (List.cons_prefix_cons.mp hpre).2
      · exact fun hpre => (List.cons_prefix_cons.mp hpre).2
  · rintro ⟨h, hS, hpre⟩
    refine ⟨s :: h, hS, hpre.imp ?_ ?_⟩
    · exact fun hpre => List.cons_prefix_cons.mpr ⟨rfl, hpre⟩
    · exact fun hpre => List.cons_prefix_cons.mpr ⟨rfl, hpre⟩

/-- A child is kept if some copied location leads to it. -/
lemma keeps_child {keep : List Segment → Bool} {S : Set (List Segment)} (hroot : [] ∉ S)
    (hkeep : ∀ q, keep q = true ↔ ∃ h ∈ S, h <+: q ∨ q <+: h) (s : Segment) :
    keep [s] = true ↔ ∃ q, s :: q ∈ S := by
  rw [keeps_under hroot hkeep]
  exact ⟨fun ⟨q, hq, _⟩ => ⟨q, hq⟩, fun ⟨q, hq⟩ => ⟨q, hq, .inr List.nil_prefix⟩⟩

/-- An increasing list of the indices that satisfy a condition lists them in the order of the items. -/
lemma eq_map_snd_filter_zipIdx {items : List Tree} {kept : List ℕ} {P : ℕ → Bool}
    (hsorted : kept.Pairwise (· < ·)) (hmem : ∀ i, i ∈ kept ↔ i < items.length ∧ P i = true) :
    kept = (items.zipIdx.filter fun m => P m.2).map Prod.snd := by
  refine hsorted.eq_of_mem_iff ?_ fun i => ?_
  · have hall : (items.zipIdx.map Prod.snd).Pairwise (· < ·) := by
      rw [List.zipIdx_map_snd, ← List.range_eq_range']
      exact List.pairwise_lt_range
    exact hall.sublist (List.filter_sublist.map Prod.snd)
  · rw [hmem]
    simp only [List.mem_map, List.mem_filter, Prod.exists, exists_eq_right,
      List.mem_zipIdx_iff_getElem?]
    constructor
    · rintro ⟨hi, hP⟩
      exact ⟨items[i], List.getElem?_eq_getElem hi, hP⟩
    · rintro ⟨t, ht, hP⟩
      exact ⟨(List.getElem?_eq_some_iff.mp ht).1, hP⟩

/-- What stands at the destination for a partly copied node is that node without what has not been copied
or gone into. -/
theorem PartialCopy.similar_prune {pl : Placement} {w : List Segment} {S : Set (List Segment)}
    {c d : Tree} (h : PartialCopy pl w S c d) (hc : c.WellFormed) (hkind : w = [] → c.kind = .map)
    {keep : List Segment → Bool} (hkeep : ∀ q, keep q = true ↔ ∃ h ∈ S, h <+: q ∨ q <+: h) :
    Similar d (c.prune keep) := by
  induction h generalizing keep with
  | whole hroot =>
    rw [prune_eq_self fun q => (hkeep q).mpr ⟨[], hroot, .inl List.nil_prefix⟩]
    exact .refl _
  | @array w S items ds kept hroot hsorted hlen hvisited hitems hslot hbelow ih =>
    have hsound : items.length ≤ Segment.indexBound := hc.sound
    set L := items.zipIdx.filter fun m => keep [.ofIndex m.2] with hL
    -- the elements that have been gone into are the kept ones, in the same order
    have hkept : kept = L.map Prod.snd := by
      refine eq_map_snd_filter_zipIdx (P := fun i => keep [.ofIndex i]) hsorted fun i => ?_
      rw [keeps_child hroot hkeep, hvisited]
      constructor
      · exact fun hi => ⟨hitems i hi, i, hi, rfl⟩
      · rintro ⟨-, j, hj, hij⟩
        exact Segment.ofIndex_injective hij ▸ hj
    rw [prune, pruneItems_eq, ← hL]
    refine .array ?_ fun k d x hd hx => ?_
    · rw [List.length_map, ← hlen, hkept, List.length_map]
    · rw [List.getElem?_map, Option.map_eq_some_iff] at hx
      obtain ⟨⟨t, i⟩, hm, rfl⟩ := hx
      have hk : kept[k]? = some i := by
        rw [hkept, List.getElem?_map, hm, Option.map_some]
      have ht : items[i]? = some t :=
        List.mem_zipIdx_iff_getElem?.mp (List.mem_filter.mp (List.mem_of_getElem? hm)).1
      have hchild : (Tree.array items).child? (.ofIndex i) = some t := by
        have hi : i < items.length := (List.getElem?_eq_some_iff.mp ht).1
        rw [child?, Segment.index?_ofIndex (hi.trans_le hsound), Option.bind_some]
        exact ht
      exact ih k i t d hk ht hd (hc.child hchild) (by simp) (keeps_under hroot hkeep _)
  | @fields w S c ds hroot hk hdistinct hvisited hchild hslot hbelow ih =>
    have hmap : c.kind = .map := hk.elim hkind id
    cases c with
    | map fs =>
      have hget : ∀ s : Segment, Entries.get? (pruneFields keep fs) s.key = if keep [s] then
          ((Tree.map fs).child? s).map (prune fun q => keep (s :: q)) else none :=
        get?_pruneFields keep fs
      rw [prune]
      refine .map hdistinct ?_ (fun k => ?_) fun k d x hd hx => ?_
      · have hfs : Entries.Distinct fs := hc.sound
        exact hfs.sublist (map_fst_pruneFields_sublist keep fs)
      · have hvisit := hvisited ⟨k⟩
        rw [hget ⟨k⟩, ← hvisit, ← keeps_child hroot hkeep]
        cases hkey : keep [⟨k⟩] with
        | false => simp
        | true =>
          obtain ⟨c', hc'⟩ := Option.isSome_iff_exists.mp (hchild ⟨k⟩
            (hvisit.mp ((keeps_child hroot hkeep ⟨k⟩).mp hkey)))
          simp [hc']
      · have hsome : (Entries.get? ds k).isSome := by
          rw [hd, Option.isSome_some]
        have hkey : keep [⟨k⟩] = true :=
          (keeps_child hroot hkeep ⟨k⟩).mpr ((hvisited ⟨k⟩).mpr hsome)
        rw [hget ⟨k⟩, if_pos hkey, Option.map_eq_some_iff] at hx
        obtain ⟨c', hc', rfl⟩ := hx
        exact ih ⟨k⟩ c' d hc' hd (hc.child hc') (by simp) (keeps_under hroot hkeep _)
    | array | null | bool | number | text => exact absurd hmap (by simp [kind])

end Tree

end DocumentPath
