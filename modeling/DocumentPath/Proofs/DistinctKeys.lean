import Mathlib
import DocumentPath.Copier.Run
import DocumentPath.Proofs.ChangeRuns
import DocumentPath.Proofs.CopySteps
import DocumentPath.Proofs.CopyWalks
import DocumentPath.Proofs.RemovalSteps
import DocumentPath.Proofs.Writes

/-!
# Distinct keys

The maps of a document in memory have distinct keys.  Here it is shown that nothing that is done to a tree
changes this, so that it need not be assumed of the trees in between: writing at a location, copying,
removing and transforming all lead from trees with distinct keys to trees with distinct keys.
-/

namespace DocumentPath

namespace Entries

variable {κ α : Type*} [DecidableEq κ]

/-- Replacing a value keeps the keys. -/
lemma map_fst_replace (es : Entries κ α) (k : κ) (v : α) :
    (replace es k v).map Prod.fst = es.map Prod.fst := by
  induction es with
  | nil => rfl
  | cons e rest ih =>
    obtain ⟨k', v'⟩ := e
    rw [replace]
    split
    · rfl
    · rw [List.map_cons, ih, List.map_cons]

/-- Replacing the value of a key that is absent changes nothing. -/
lemma replace_eq_self {es : Entries κ α} {k : κ} (h : get? es k = none) (v : α) :
    replace es k v = es := by
  induction es with
  | nil => rfl
  | cons e rest ih =>
    obtain ⟨k', v'⟩ := e
    rw [get?] at h
    split at h
    · cases h
    · next hk => rw [replace, if_neg hk, ih h]

/-- An entry after a replacement has the new value or was there before. -/
lemma mem_replace {es : Entries κ α} {k : κ} {v : α} {e : κ × α} (h : e ∈ replace es k v) :
    e = (k, v) ∨ e ∈ es := by
  cases hget : get? es k with
  | none =>
    rw [replace_eq_self hget] at h
    exact .inr h
  | some v₀ =>
    rw [replace_eq_insert hget] at h
    exact mem_insert h

end Entries

namespace Tree

/-! ### Nodes and children -/

/-- Items have distinct keys throughout if each of them has. -/
lemma distinctItems_iff {items : List Tree} : DistinctItems items ↔ ∀ t ∈ items, t.Distinct := by
  induction items with
  | nil => simp [DistinctItems]
  | cons t rest ih => rw [DistinctItems, ih, List.forall_mem_cons]

/-- The values of fields have distinct keys throughout if each of them has. -/
lemma distinctFields_iff {fields : List (String × Tree)} :
    DistinctFields fields ↔ ∀ f ∈ fields, f.2.Distinct := by
  induction fields with
  | nil => simp [DistinctFields]
  | cons f rest ih =>
    obtain ⟨k, t⟩ := f
    rw [DistinctFields, ih, List.forall_mem_cons]

/-- An array has distinct keys throughout if its items have. -/
lemma distinct_array_iff {items : List Tree} :
    (Tree.array items).Distinct ↔ ∀ t ∈ items, t.Distinct := by
  rw [Distinct, distinctItems_iff]

/-- A map has distinct keys throughout if its own keys are distinct and its values have. -/
lemma distinct_map_iff {fields : List (String × Tree)} :
    (Tree.map fields).Distinct ↔ Entries.Distinct fields ∧ ∀ f ∈ fields, f.2.Distinct := by
  rw [Distinct, distinctFields_iff]

/-- Distinct keys throughout are those of every child as well. -/
lemma Distinct.of_mem_children {t c : Tree} (h : t.Distinct) (hc : c ∈ t.children) : c.Distinct := by
  cases t with
  | array items => exact distinct_array_iff.mp h c hc
  | map fields =>
    obtain ⟨f, hf, rfl⟩ := List.mem_map.mp hc
    exact (distinct_map_iff.mp h).2 f hf
  | null | bool | number | text => exact absurd hc List.not_mem_nil

/-- Distinct keys throughout are those of the child at a segment as well. -/
lemma Distinct.child {t c : Tree} {s : Segment} (h : t.Distinct) (hc : t.child? s = some c) :
    c.Distinct := h.of_mem_children (mem_children_of_child? hc)

/-- Distinct keys throughout are those of the node at any location as well. -/
lemma Distinct.at {t u : Tree} {p : List Segment} (h : t.Distinct) (hu : t.at? p = some u) :
    u.Distinct := by
  induction p generalizing t with
  | nil => exact Option.some.inj hu ▸ h
  | cons s rest ih =>
    obtain ⟨c, hc, hrest⟩ := at?_cons_eq_some_iff.mp hu
    exact ih (h.child hc) hrest

/-- Distinct keys throughout are those of every node as well. -/
lemma Distinct.of_mem_nodes {t u : Tree} (h : t.Distinct) (hu : u ∈ t.nodes) : u.Distinct := by
  induction t using byChildren with
  | step t ih =>
    rw [nodes_eq, List.mem_cons, List.mem_flatMap] at hu
    rcases hu with rfl | ⟨c, hc, hu⟩
    · exact h
    · exact ih c hc (h.of_mem_children hc) hu

/-! ### Writing -/

/-- Setting an item of an array keeps keys distinct. -/
lemma distinct_set {items : List Tree} (h : (Tree.array items).Distinct) {v : Tree}
    (hv : v.Distinct) (i : ℕ) : (Tree.array (items.set i v)).Distinct := by
  rw [distinct_array_iff] at h ⊢
  intro c hc
  rcases List.mem_or_eq_of_mem_set hc with hc | rfl
  · exact h c hc
  · exact hv

/-- Joining arrays keeps keys distinct. -/
lemma distinct_append {items items' : List Tree} (h : (Tree.array items).Distinct)
    (h' : (Tree.array items').Distinct) : (Tree.array (items ++ items')).Distinct := by
  rw [distinct_array_iff] at h h' ⊢
  exact List.forall_mem_append.mpr ⟨h, h'⟩

/-- An array of one item has no keys of its own. -/
lemma distinct_singleton {v : Tree} (hv : v.Distinct) : (Tree.array [v]).Distinct :=
  distinct_array_iff.mpr (List.forall_mem_singleton.mpr hv)

/-- Inserting a field keeps keys distinct. -/
lemma distinct_insert {fields : List (String × Tree)} (h : (Tree.map fields).Distinct) {v : Tree}
    (hv : v.Distinct) (k : String) : (Tree.map (Entries.insert fields k v)).Distinct := by
  rw [distinct_map_iff] at h ⊢
  refine ⟨Entries.distinct_insert h.1 k v, fun f hf => ?_⟩
  rcases Entries.mem_insert hf with rfl | hf
  · exact hv
  · exact h.2 f hf

/-- The empty map has no keys. -/
lemma distinct_map_nil : (Tree.map []).Distinct :=
  distinct_map_iff.mpr ⟨List.nodup_nil, fun _ hf => absurd hf List.not_mem_nil⟩

/-- A new container has no keys. -/
lemma distinct_freshFor (s : Segment) : (freshFor s).Distinct := by
  unfold freshFor
  split
  · exact distinct_array_iff.mpr nofun
  · exact distinct_map_nil

/-- Placing an item at an index keeps keys distinct. -/
lemma distinct_placeItem {items : List Tree} (h : (Tree.array items).Distinct) {v : Tree}
    (hv : v.Distinct) (i : ℕ) : (Tree.array (placeItem items i v)).Distinct := by
  unfold placeItem
  split
  · exact distinct_set h hv i
  · refine distinct_append (distinct_append h (distinct_array_iff.mpr fun c hc => ?_))
      (distinct_singleton hv)
    rw [List.eq_of_mem_replicate hc]
    exact trivial

/-- Placing a child at a segment keeps keys distinct. -/
lemma distinct_place {t t' v : Tree} {s : Segment} (ht : t.Distinct) (hv : v.Distinct)
    (h : t.place s v = .ok t') : t'.Distinct := by
  cases t with
  | array items =>
    rw [place] at h
    cases hi : s.index? with
    | none => simp [hi] at h
    | some i =>
      rw [hi] at h
      exact Except.ok.inj h ▸ distinct_placeItem ht hv i
  | map fields => exact Except.ok.inj h ▸ distinct_insert ht hv s.key
  | null | bool | number | text => exact absurd h (by simp [place])

/-- Putting a child back keeps keys distinct. -/
lemma distinct_putChild {t v : Tree} (ht : t.Distinct) (hv : v.Distinct) (s : Segment) :
    (t.putChild s v).Distinct := by
  cases t with
  | array items =>
    rw [putChild]
    cases s.index? with
    | none => exact ht
    | some i => exact distinct_set ht hv i
  | map fields =>
    rw [putChild, distinct_map_iff]
    rw [distinct_map_iff] at ht
    refine ⟨?_, fun f hf => ?_⟩
    · rw [Entries.Distinct, Entries.map_fst_replace]
      exact ht.1
    · rcases Entries.mem_replace hf with rfl | hf
      · exact hv
      · exact ht.2 f hf
  | null | bool | number | text => exact trivial

/-- Putting a node in place keeps the keys distinct. -/
theorem distinct_putAt {t v : Tree} (ht : t.Distinct) (hv : v.Distinct) (p : List Segment) :
    (t.putAt p v).Distinct := by
  induction p generalizing t with
  | nil => exact hv
  | cons s rest ih =>
    rw [putAt]
    cases hc : t.child? s with
    | none => exact ht
    | some c => exact distinct_putChild ht (ih (ht.child hc)) s

/-- Making sure that a child is there keeps keys distinct. -/
lemma distinct_ensureChild {t t' v : Tree} {s : Segment} (ht : t.Distinct) (hv : v.Distinct)
    (h : t.ensureChild s v = .ok t') : t'.Distinct := by
  unfold ensureChild at h
  split at h
  · exact Except.ok.inj h ▸ ht
  · exact distinct_place ht hv h

/-- Opening a child for what follows keeps keys distinct. -/
lemma distinct_openChild {t : Tree} (ht : t.Distinct) (s : Segment) :
    (openChild s t).tree.Distinct := by
  rcases openChild_cases s t with ⟨o, hfail, -⟩ | ⟨t', hok, hensure, -⟩
  · rw [hfail]
    exact ht
  · rw [hok]
    exact distinct_ensureChild ht distinct_map_nil hensure

/-- The walk to a container keeps the keys distinct, if the change of the container does. -/
theorem distinct_atParent {change : Segment → Tree → Outcome Obstacle}
    (hchange : ∀ s t, t.Distinct → (change s t).tree.Distinct) (p : List Segment) {t : Tree}
    (ht : t.Distinct) : (atParent change p t).tree.Distinct := by
  induction p generalizing t with
  | nil => exact ht
  | cons s rest ih =>
    cases rest with
    | nil => exact hchange s t ht
    | cons next rest =>
      rcases atParent_cons_cases change s next rest t with ⟨o, hfail, -⟩ | ⟨c, hc, hgo⟩ |
        ⟨-, -, t', hplace, hchild, hgo⟩
      · rw [hfail]
        exact ht
      · rw [hgo]
        exact distinct_putAt ht (ih (ht.child hc)) [s]
      · rw [hgo]
        exact distinct_putAt (distinct_place ht (distinct_freshFor next) hplace)
          (ih (distinct_freshFor next)) [s]

/-! ### Copying -/

/-- The new containers along a path have no key twice. -/
lemma distinct_freshAlong (rest : List Segment) : (freshAlong rest).Distinct := by
  cases rest with
  | nil => exact trivial
  | cons next rest => exact distinct_freshFor next

/-- A copy keeps the keys distinct. -/
theorem distinct_copyOver {v : Tree} (hv : v.Distinct) (w p : List Segment) (pl : Placement)
    {t : Tree} (ht : t.Distinct) : (copyOver v w p pl t).1.tree.Distinct := by
  induction p generalizing w pl t with
  | nil => exact hv
  | cons s rest ih =>
    rcases copyOver_cons_cases v w s rest pl t with ⟨_, hfail⟩ | ⟨fields, rfl, hready⟩ |
      ⟨items, i, rfl, hseat⟩ | ⟨items, rfl, hseat⟩
    · rw [hfail]
      exact ht
    · have hfield : (fieldAlong fields s rest).Distinct := by
        unfold fieldAlong
        cases hget : Entries.get? fields s.key with
        | none => exact distinct_freshAlong rest
        | some c => exact ht.child (s := s) hget
      rw [copyOver_map v w pl hready]
      exact distinct_insert ht (ih _ _ hfield) s.key
    · have hitem : (items[i]?.getD .null).Distinct := by
        cases hget : items[i]? with
        | none => exact trivial
        | some c => exact ht.of_mem_children (List.mem_of_getElem? hget)
      rw [copyOver_array_reused v w pl hseat]
      exact distinct_set ht (ih _ _ hitem) i
    · rw [copyOver_array_new v w pl hseat]
      exact distinct_append ht (distinct_singleton (ih _ _ (distinct_freshAlong rest)))

/-- Inserting many fields keeps keys distinct. -/
lemma distinct_insertAll {fields : List (String × Tree)} (hfields : ∀ f ∈ fields, f.2.Distinct)
    {ds : List (String × Tree)} (hds : (Tree.map ds).Distinct) :
    (Tree.map (Entries.insertAll ds fields)).Distinct := by
  induction fields generalizing ds with
  | nil => exact hds
  | cons f rest ih =>
    rw [List.forall_mem_cons] at hfields
    exact ih hfields.2 (distinct_insert hds hfields.1 f.1)

/-- Merging one tree into another keeps keys distinct. -/
lemma distinct_mergeRoot {v t : Tree} (hv : v.Distinct) (ht : t.Distinct) :
    (mergeRoot v t).tree.Distinct := by
  unfold mergeRoot
  split
  · next fields ds =>
    have hmerge := mergeRoot_map fields ds
    rw [mergeRoot] at hmerge
    rw [hmerge]
    exact distinct_insertAll (distinct_map_iff.mp hv).2 ht
  · exact distinct_append ht hv
  · exact ht

end Tree

namespace Pointer

/-- Opening a container at a location keeps keys distinct. -/
theorem distinct_openContainer (p : Pointer) {t : Tree} (ht : t.Distinct) :
    (p.openContainer t).tree.Distinct := by
  unfold openContainer
  split
  · split
    · exact ht
    · exact ht
  · exact Tree.distinct_atParent (fun s _ h => Tree.distinct_openChild h s) p.segments ht

variable {source : Tree}

/-- A copy of one location under a placement keeps keys distinct. -/
lemma distinct_copyPlaced (hsource : source.Distinct) (p : Pointer) (filter : Option Filter)
    (pl : Placement) {t : Tree} (ht : t.Distinct) :
    (p.copyPlaced source filter pl t).1.tree.Distinct := by
  obtain ⟨q⟩ := p
  cases hoffers : source.offers filter q with
  | false =>
    rw [copyPlaced_of_not_offers hoffers]
    exact ht
  | true =>
    cases q with
    | nil =>
      rw [copyPlaced_root hoffers]
      exact Tree.distinct_mergeRoot hsource ht
    | cons s rest =>
      obtain ⟨v, hv, -⟩ := Tree.offers_eq_true_iff.mp hoffers
      rw [copyPlaced_of_offers hv hoffers (by simp)]
      exact Tree.distinct_copyOver (hsource.at hv) [] (s :: rest) pl ht

/-- A run of copies keeps keys distinct. -/
lemma distinct_copyEach (hsource : source.Distinct) (filter : Option Filter) (ps : List Pointer)
    (pl : Placement) {t : Tree} (ht : t.Distinct) :
    (copyEach source filter ps pl t).1.tree.Distinct := by
  induction ps generalizing pl t with
  | nil => exact ht
  | cons p rest ih =>
    have hfirst := distinct_copyPlaced hsource p filter pl ht
    cases h : (p.copyPlaced source filter pl t).1.error with
    | some e =>
      rw [copyEach_cons_of_error h]
      exact hfirst
    | none =>
      rw [copyEach_cons_of_ok h]
      exact ih _ hfirst

end Pointer

/-- Copying through a selector keeps the keys distinct. -/
theorem Selector.distinct_copy {source t : Tree} (hsource : source.Distinct) (ht : t.Distinct)
    (s : Selector) (fast : Bool) (filter : Option Filter) :
    (s.copy fast source filter t).tree.Distinct := by
  rw [copy_eq_copyEach]
  exact Pointer.distinct_copyEach hsource filter _ .empty ht

/-! ### Removing -/

/-- Taking a child away keeps keys distinct. -/
lemma Tree.distinct_takeChild? {t t' v : Tree} {s : Segment} (ht : t.Distinct)
    (h : t.takeChild? s = some (v, t')) : t'.Distinct := by
  cases t with
  | array items =>
    obtain ⟨i, -, hi⟩ := Option.bind_eq_some_iff.mp h
    obtain ⟨c, -, hc⟩ := Option.map_eq_some_iff.mp hi
    rw [← (Prod.mk.inj hc).2, Tree.distinct_array_iff]
    exact fun c' hc' => Tree.distinct_array_iff.mp ht c' (List.mem_of_mem_eraseIdx hc')
  | map fields =>
    obtain ⟨c, -, hc⟩ := Option.map_eq_some_iff.mp h
    obtain ⟨hdistinct, hfields⟩ := Tree.distinct_map_iff.mp ht
    have hsub := Entries.erase_sublist fields s.key
    rw [← (Prod.mk.inj hc).2, Tree.distinct_map_iff]
    exact ⟨hdistinct.sublist (hsub.map Prod.fst), fun f hf => hfields f (hsub.subset hf)⟩
  | null | bool | number | text => exact absurd h (by simp [Tree.takeChild?])

/-- Removing the node at a location keeps keys distinct. -/
lemma Pointer.distinct_remove (p : Pointer) {t : Tree} (ht : t.Distinct) :
    (p.remove t).2.Distinct := by
  unfold remove
  cases hs : p.tail? with
  | none => exact ht
  | some s =>
    cases hparent : p.head.at? t with
    | none => exact ht
    | some parent =>
      cases htake : parent.takeChild? s with
      | none => simpa [hparent, htake] using ht
      | some r =>
        have hr : r.2.Distinct := Tree.distinct_takeChild? (v := r.1) (ht.at hparent) htake
        simpa [hparent, htake] using Tree.distinct_putAt ht hr p.head.segments

namespace Removal

variable {f : Tree → Run Removal}

/-- What is left by a removal has distinct keys if the tree has, with every cache. -/
def KeepsDistinct (f : Tree → Run Removal) : Prop :=
  ∀ t σ, t.Distinct → ((f t).run σ).1.tree.Distinct

/-- Removing through one pointer keeps keys distinct. -/
lemma distinct_ofPointer (p : Pointer) {t : Tree} (ht : t.Distinct) :
    (ofPointer p t).tree.Distinct := p.distinct_remove ht

/-- A removal that keeps keys distinct does so in every item. -/
lemma distinct_fromItems (hf : KeepsDistinct f) {items : List Tree} (h : ∀ t ∈ items, t.Distinct)
    (σ : Session) : ∀ t ∈ ((fromItems f items).run σ).1.2, t.Distinct := by
  induction items generalizing σ with
  | nil => exact h
  | cons t rest ih =>
    rw [List.forall_mem_cons] at h
    exact List.forall_mem_cons.mpr ⟨hf t σ h.1, ih h.2 _⟩

/-- A removal that keeps keys distinct does so in every field, and leaves the keys of the fields alone. -/
lemma distinct_fromFields (hf : KeepsDistinct f) {fields : List (String × Tree)}
    (h : ∀ e ∈ fields, e.2.Distinct) (σ : Session) :
    ((fromFields f fields).run σ).1.2.map Prod.fst = fields.map Prod.fst ∧
      ∀ e ∈ ((fromFields f fields).run σ).1.2, e.2.Distinct := by
  induction fields generalizing σ with
  | nil => exact ⟨rfl, h⟩
  | cons e rest ih =>
    rw [List.forall_mem_cons] at h
    obtain ⟨hkeys, hrest⟩ := ih h.2 ((f e.2).run σ).2
    exact ⟨congrArg (e.1 :: ·) hkeys, List.forall_mem_cons.mpr ⟨hf e.2 σ h.1, hrest⟩⟩

/-- A removal that keeps keys distinct does so in every child. -/
lemma keepsDistinct_fromChildren (hf : KeepsDistinct f) : KeepsDistinct (fromChildren f) := by
  intro t σ ht
  cases t with
  | array items =>
    exact Tree.distinct_array_iff.mpr (distinct_fromItems hf (Tree.distinct_array_iff.mp ht) σ)
  | map fields =>
    obtain ⟨hdistinct, hfields⟩ := Tree.distinct_map_iff.mp ht
    obtain ⟨hkeys, hleft⟩ := distinct_fromFields hf hfields σ
    exact Tree.distinct_map_iff.mpr ⟨(congrArg List.Nodup hkeys).mpr hdistinct, hleft⟩
  | null | bool | number | text => exact ht

/-- A removal that keeps keys distinct does so from a node down. -/
lemma keepsDistinct_downwards (hf : KeepsDistinct f) (depth : ℕ) :
    KeepsDistinct (downwards f depth) := by
  induction depth with
  | zero => exact hf
  | succ depth ih => exact fun t σ ht => keepsDistinct_fromChildren ih _ _ (hf t σ ht)

/-- Removing children one after another keeps keys distinct. -/
lemma keepsDistinct_ofSegments (segments : List Segment) : KeepsDistinct (ofSegments segments) := by
  induction segments with
  | nil => exact fun t _ ht => ht
  | cons s rest ih => exact fun t σ ht => ih _ _ (distinct_ofPointer _ ht)

/-- Removing all children keeps keys distinct. -/
lemma keepsDistinct_ofChildren : KeepsDistinct ofChildren := by
  intro t σ ht
  unfold ofChildren
  cases t.kind with
  | array => exact keepsDistinct_ofSegments _ t σ ht
  | map | value => exact keepsDistinct_ofSegments _ t σ ht

/-- Removing through stages keeps the keys distinct. -/
theorem keepsDistinct_ofStages (stages : List Stage) : KeepsDistinct (ofStages stages) := by
  induction stages with
  | nil => exact fun t _ ht => ht
  | cons stage rest ih =>
    intro t σ ht
    by_cases hlast : rest = [.terminal]
    · subst hlast
      cases stage with
      | terminal => exact ht
      | literal p => exact distinct_ofPointer p ht
      | wildcard | descent => exact keepsDistinct_ofChildren t σ ht
    · cases stage with
      | terminal => exact ht
      | literal p =>
        rw [ofStages_literal hlast]
        cases hc : p.at? t with
        | none => exact ht
        | some c => exact Tree.distinct_putAt ht (ih c σ (ht.at hc)) p.segments
      | wildcard =>
        rw [ofStages_wildcard hlast]
        exact keepsDistinct_fromChildren ih t σ ht
      | descent =>
        rw [ofStages_descent hlast]
        exact keepsDistinct_downwards ih t.height t σ ht

end Removal

/-- Removing through a selector keeps keys distinct. -/
lemma Selector.distinct_remove (s : Selector) {t : Tree} (ht : t.Distinct) (σ : Session) :
    ((s.remove t).run σ).1.tree.Distinct := by
  unfold remove
  cases s.asPointer? with
  | none => exact Removal.keepsDistinct_ofStages s.stages t σ ht
  | some p => exact Removal.distinct_ofPointer p ht

/-! ### Transforming -/

namespace Tree

variable {ε : Type} {f : Tree → Outcome ε}

/-- Going up through a list of trees is changing each of them from the leaves up. -/
lemma changeUpItems_eq (f : Tree → Outcome ε) (items : List Tree) :
    changeUpItems f items = changeItems (changeUp f) items := by
  induction items with
  | nil => rfl
  | cons t rest ih => rw [changeUpItems, changeItems, ih]

/-- Changing the fields from the leaves up changes each of them so. -/
lemma changeUpFields_eq (f : Tree → Outcome ε) (fields : List (String × Tree)) :
    changeUpFields f fields = changeFields (changeUp f) fields := by
  induction fields with
  | nil => rfl
  | cons e rest ih =>
    obtain ⟨k, t⟩ := e
    rw [changeUpFields, changeFields, ih]

/-- A change from the leaves up changes the children in this way, and then the node itself. -/
theorem changeUp_eq (f : Tree → Outcome ε) (t : Tree) :
    changeUp f t = (changeChildren (changeUp f) t).andThen f := by
  cases t with
  | array items =>
    rw [changeUp, changeUpItems_eq, changeChildren, Outcome.andThen]
    rcases changeItems (changeUp f) items with ⟨_, _ | _⟩ <;> rfl
  | map fields =>
    rw [changeUp, changeUpFields_eq, changeChildren, Outcome.andThen]
    rcases changeFields (changeUp f) fields with ⟨_, _ | _⟩ <;> rfl
  | null | bool | number | text => rfl

/-- A change that keeps keys distinct does so in every item. -/
lemma distinct_changeItems {items : List Tree} (h : ∀ t ∈ items, t.Distinct)
    (hf : ∀ t ∈ items, (f t).tree.Distinct) : ∀ t ∈ (changeItems f items).1, t.Distinct := by
  induction items with
  | nil => exact h
  | cons t rest ih =>
    rw [List.forall_mem_cons] at h hf
    rw [changeItems]
    cases (f t).error with
    | some e => exact List.forall_mem_cons.mpr ⟨hf.1, h.2⟩
    | none => exact List.forall_mem_cons.mpr ⟨hf.1, ih h.2 hf.2⟩

/-- A change that keeps keys distinct does so in every field, and leaves the keys of the fields alone. -/
lemma distinct_changeFields {fields : List (String × Tree)} (h : ∀ e ∈ fields, e.2.Distinct)
    (hf : ∀ e ∈ fields, (f e.2).tree.Distinct) :
    (changeFields f fields).1.map Prod.fst = fields.map Prod.fst ∧
      ∀ e ∈ (changeFields f fields).1, e.2.Distinct := by
  induction fields with
  | nil => exact ⟨rfl, h⟩
  | cons e rest ih =>
    obtain ⟨k, t⟩ := e
    rw [List.forall_mem_cons] at h hf
    obtain ⟨hkeys, hrest⟩ := ih h.2 hf.2
    rw [changeFields]
    cases (f t).error with
    | some e => exact ⟨rfl, List.forall_mem_cons.mpr ⟨hf.1, h.2⟩⟩
    | none => exact ⟨congrArg (k :: ·) hkeys, List.forall_mem_cons.mpr ⟨hf.1, hrest⟩⟩

/-- A change of the children keeps the keys distinct, if it does so for each of them. -/
lemma distinct_changeChildren {t : Tree} (ht : t.Distinct)
    (hf : ∀ c ∈ t.children, (f c).tree.Distinct) : (changeChildren f t).tree.Distinct := by
  cases t with
  | array items =>
    rw [distinct_array_iff] at ht
    exact distinct_array_iff.mpr (distinct_changeItems ht hf)
  | map fields =>
    rw [distinct_map_iff] at ht
    obtain ⟨hkeys, hfields⟩ := distinct_changeFields ht.2 fun e he =>
      hf e.2 (List.mem_map_of_mem (f := Prod.snd) he)
    exact distinct_map_iff.mpr ⟨(congrArg List.Nodup hkeys).mpr ht.1, hfields⟩
  | null | bool | number | text => exact ht

/-- A change from the leaves up keeps the keys distinct, if the change of a node does. -/
theorem distinct_changeUp (hf : ∀ t, t.Distinct → (f t).tree.Distinct) {t : Tree}
    (ht : t.Distinct) : (changeUp f t).tree.Distinct := by
  induction t using byChildren with
  | step t ih =>
    have hbelow : (changeChildren (changeUp f) t).tree.Distinct :=
      distinct_changeChildren ht fun c hc => ih c hc (ht.of_mem_children hc)
    rw [changeUp_eq, Outcome.andThen]
    split
    · exact hf _ hbelow
    · exact hbelow

end Tree

namespace Transform

/-- The images of documents under a transform are documents.  This is asked of a function of the caller's
only, where it does not refuse the document. -/
def KeepsDistinct : Transform → Prop
  | .convert _ | .replaceText _ => True
  | .function f => ∀ t t', t.Distinct → f t = .ok t' → t'.Distinct

/-- An image under a conversion is a text or a number. -/
lemma distinct_convert? {c : Conversion} {t t' : Tree} (h : c.convert? t = some t') :
    t'.Distinct := by
  cases c with
  | toText =>
    cases t with
    | null | array | map => exact absurd h (by simp [Conversion.convert?])
    | bool | number | text => exact Option.some.inj h ▸ trivial
  | toDouble | toSingle | toInt64 =>
    obtain ⟨_, -, rfl⟩ := Option.map_eq_some_iff.mp h
    exact trivial
  | toInt32 =>
    obtain ⟨n, -, hn⟩ := Option.bind_eq_some_iff.mp h
    obtain ⟨-, hn⟩ := Option.ite_none_right_eq_some.mp hn
    exact Option.some.inj hn ▸ trivial

/-- The image of a node under a transform that keeps keys distinct has distinct keys. -/
lemma distinct_apply {f : Transform} (hf : f.KeepsDistinct) {t t' : Tree} (ht : t.Distinct)
    (h : f.apply t = .ok t') : t'.Distinct := by
  cases f with
  | function f => exact hf t t' ht h
  | replaceText r =>
    cases t with
    | text =>
      obtain rfl := Except.ok.inj h
      cases r.text <;> exact trivial
    | null | bool | number | array | map => exact absurd h (by simp [apply, TextReplacement.apply])
  | convert c =>
    rw [apply, Conversion.apply] at h
    split at h
    · exact Except.ok.inj h ▸ trivial
    · cases himage : c.convert? t with
      | none => simp [himage] at h
      | some image =>
        rw [himage] at h
        exact Except.ok.inj h ▸ distinct_convert? himage

/-- Transforming through stages keeps the keys distinct. -/
lemma distinct_applyStages {f : Transform} (hf : f.KeepsDistinct) (stages : List Stage) {t : Tree}
    (ht : t.Distinct) : (Stage.apply f.apply stages t).tree.Distinct := by
  induction stages generalizing t with
  | nil => exact ht
  | cons stage rest ih =>
    cases stage with
    | terminal =>
      rw [Stage.apply]
      cases h : f.apply t with
      | error e => exact ht
      | ok t' => exact distinct_apply hf ht h
    | literal p =>
      rw [Stage.apply]
      cases hc : p.at? t with
      | none => exact ht
      | some c => exact Tree.distinct_putAt ht (ih (ht.at hc)) p.segments
    | wildcard => exact Tree.distinct_changeChildren ht fun c hc => ih (ht.of_mem_children hc)
    | descent => exact Tree.distinct_changeUp (fun _ hu => ih hu) ht

/-- Transforming one location keeps keys distinct if the transform does. -/
lemma distinct_applyPointer {f : Transform} (hf : f.KeepsDistinct) (p : Pointer) {t : Tree}
    (ht : t.Distinct) : (p.apply f.apply t).tree.Distinct := by
  have himage : ∀ u : Tree, u.Distinct → (Outcome.ofExcept u (f.apply u)).tree.Distinct := by
    intro u hu
    cases h : f.apply u with
    | error e => exact hu
    | ok u' => exact distinct_apply hf hu h
  unfold Pointer.apply
  cases p.tail? with
  | none => exact himage t ht
  | some s =>
    cases hparent : p.head.at? t with
    | none => exact ht
    | some parent =>
      simp only
      split
      · cases hv : parent.child? s with
        | none => exact ht
        | some v =>
          have hdistinct : v.Distinct := (ht.at (p := p.head.segments) hparent).child hv
          exact Tree.distinct_putAt ht (himage v hdistinct) p.segments
      · exact ht

/-- Transforming keeps the keys distinct. -/
theorem distinct_applySelector {f : Transform} (hf : f.KeepsDistinct) (s : Selector) {t : Tree}
    (ht : t.Distinct) : (s.apply f.apply t).tree.Distinct := by
  unfold Selector.apply
  cases s.asPointer? with
  | none => exact distinct_applyStages hf s.stages ht
  | some p => exact distinct_applyPointer hf p ht

end Transform

/-! ### Copiers -/

/-- The matches in a tree of distinct keys have distinct keys. -/
lemma Stage.distinct_of_mem_matches {stages : List Stage} {t u : Tree} (ht : t.Distinct)
    (hu : u ∈ Stage.matches stages t) : u.Distinct := by
  induction stages generalizing t with
  | nil => exact absurd hu List.not_mem_nil
  | cons stage rest ih =>
    cases stage with
    | terminal => exact List.mem_singleton.mp hu ▸ ht
    | literal p =>
      rw [Stage.matches] at hu
      cases hc : p.at? t with
      | none =>
        rw [hc] at hu
        exact absurd hu List.not_mem_nil
      | some c =>
        rw [hc] at hu
        exact ih (ht.at hc) hu
    | wildcard =>
      obtain ⟨c, hc, hu⟩ := List.mem_flatMap.mp hu
      exact ih (ht.of_mem_children hc) hu
    | descent =>
      obtain ⟨c, hc, hu⟩ := List.mem_flatMap.mp hu
      exact ih (ht.of_mem_nodes hc) hu

/-- What a selector matches in a document is a document. -/
lemma Selector.distinct_of_mem_all {s : Selector} {t u : Tree} (ht : t.Distinct) (hu : u ∈ s.all t) :
    u.Distinct := by
  rw [all_eq_matches] at hu
  exact Stage.distinct_of_mem_matches ht hu

namespace CompiledRecord

/-- The images of documents under the transforms of a record are documents. -/
def KeepsDistinct (r : CompiledRecord) : Prop := ∀ e ∈ r.transforms, e.2.KeepsDistinct

variable {source : Tree}

/-- Copying the includes of a record keeps keys distinct. -/
lemma distinct_copyIncludes (hsource : source.Distinct) (r : CompiledRecord) (fast : Bool) {t : Tree}
    (ht : t.Distinct) : (r.copyIncludes fast source t).tree.Distinct := by
  refine Outcome.invariant_sequence (P := Tree.Distinct) (fun f hf t ht => ?_) ht
  obtain ⟨e, -, rfl⟩ := List.mem_map.mp hf
  exact e.1.distinct_copy hsource ht fast e.2

/-- Removing the excludes of a record keeps keys distinct. -/
lemma distinct_removeExcluded (excludes : List Selector) {t : Tree} (ht : t.Distinct) (σ : Session) :
    ((removeExcluded excludes t).run σ).1.Distinct := by
  induction excludes generalizing t σ with
  | nil => exact ht
  | cons e rest ih => exact ih (e.distinct_remove ht σ) _

/-- The transforms of a record keep keys distinct together if each of them does. -/
lemma distinct_transform {r : CompiledRecord} (hr : r.KeepsDistinct) {t : Tree} (ht : t.Distinct) :
    (r.transform t).tree.Distinct := by
  refine Outcome.invariant_sequence (P := Tree.Distinct) (fun f hf t ht => ?_) ht
  obtain ⟨e, he, rfl⟩ := List.mem_map.mp hf
  exact Transform.distinct_applySelector (hr e he) e.1 ht

/-- A record keeps keys distinct at every match if its transforms do. -/
lemma distinct_copyMatch {r : CompiledRecord} (hr : r.KeepsDistinct) (fast : Bool)
    (hvalue : source.Distinct) {t : Tree} (ht : t.Distinct) (σ : Session) :
    ((r.copyMatch fast source t).run σ).1.tree.Distinct := by
  unfold copyMatch
  split
  · have hincludes := r.distinct_copyIncludes hvalue fast ht
    simp only
    split
    · exact hincludes
    · exact distinct_transform hr (distinct_removeExcluded r.excludes hincludes σ)
  · exact ht

/-- A record keeps keys distinct if its transforms do. -/
theorem distinct_copy {r : CompiledRecord} (hr : r.KeepsDistinct) (fast : Bool)
    (hsource : source.Distinct) {t : Tree} (ht : t.Distinct) (σ : Session) :
    ((copy fast source r t).run σ).1.tree.Distinct := by
  unfold copy
  rw [Run.run_bind_fst]
  refine Run.invariant_each (P := Tree.Distinct) (fun v hv t σ ht => ?_) ht _
  exact distinct_copyMatch hr fast (Selector.distinct_of_mem_all hsource hv) ht σ

end CompiledRecord

/-- The images of documents under the transforms of a spec are documents. -/
def CompiledCopySpec.KeepsDistinct (s : CompiledCopySpec) : Prop := ∀ r ∈ s.records, r.KeepsDistinct

/-- A spec keeps keys distinct if its transforms do. -/
theorem CompiledCopySpec.distinct_copy {s : CompiledCopySpec} (hs : s.KeepsDistinct) (fast : Bool)
    {source : Tree} (hsource : source.Distinct) {t : Tree} (ht : t.Distinct) (σ : Session) :
    ((copy fast source s t).run σ).1.tree.Distinct := by
  have hopened : (s.target.openContainer t).tree.Distinct := s.target.distinct_openContainer ht
  unfold copy
  simp only
  split
  · next node _ hnode =>
    rw [Run.run_bind_fst]
    refine Tree.distinct_putAt hopened ?_ s.target.segments
    refine Run.invariant_each (P := Tree.Distinct) (fun r hr t σ ht => ?_) (hopened.at hnode) σ
    exact CompiledRecord.distinct_copy (hs r hr) fast hsource ht σ
  · exact hopened

namespace Copier

/-- The images of documents under the transforms of a copier are documents. -/
def KeepsDistinct (c : Copier) : Prop := ∀ s ∈ c.specs, s.KeepsDistinct

/-- A copier makes documents of documents, however its run ends. -/
theorem distinct_copy {c : Copier} (hc : c.KeepsDistinct) {source t : Tree}
    (hsource : source.Distinct) (ht : t.Distinct) (σ : Session) :
    ((c.copy source t).run σ).1.tree.Distinct := by
  obtain ⟨σ', hrun⟩ := Run.run_asOperation .copier "copy" c.size Outcome.error (c.copyAll source t) σ
  rw [copy, hrun]
  refine Run.invariant_each (P := Tree.Distinct) (fun s hs t σ ht => ?_) ht σ'
  exact CompiledCopySpec.distinct_copy (hc s hs) c.fast hsource ht σ

end Copier

end DocumentPath
