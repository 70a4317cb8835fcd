import Mathlib
import DocumentPath.Proofs.DistinctKeys
import DocumentPath.Proofs.Pruning
import DocumentPath.Proofs.UntouchedLocations

/-!
# Independent writes

Two locations of which neither lies at or below the other can be written in either order: where both orders
succeed, they give the same tree up to the order of the keys of maps (`Pointer.similar_set_set`).

A write that succeeds places one new child in the root, under the first segment of its location
(`Tree.place_of_write`).  Writes that part at the root place two children, in either order
(`Tree.similar_place_place`).  Writes that go on below the same child come to one child that was written
twice, and if they have created it, each order has chosen its kind by the segment that its first write goes on
with; since the other write was possible afterwards, the kinds agree.
-/

namespace DocumentPath

namespace Entries

variable {κ α : Type*} [DecidableEq κ]

/-- Of two values inserted under a key the second stays. -/
lemma insert_insert (es : Entries κ α) (k : κ) (v v' : α) :
    insert (insert es k v) k v' = insert es k v' := by
  rw [← replace_eq_insert (get?_insert_self es k v), replace_insert_self]

/-- What is read after insertions under two keys does not depend on their order. -/
lemma get?_insert_comm (es : Entries κ α) {k k' : κ} (hne : k ≠ k') (v v' : α) (j : κ) :
    get? (insert (insert es k v) k' v') j = get? (insert (insert es k' v') k v) j := by
  by_cases hk : k = j
  · subst hk
    rw [get?_insert_of_ne _ hne.symm, get?_insert_self, get?_insert_self]
  · rw [get?_insert_of_ne _ hk]
    by_cases hk' : k' = j
    · subst hk'
      rw [get?_insert_self, get?_insert_self]
    · rw [get?_insert_of_ne _ hk', get?_insert_of_ne _ hk', get?_insert_of_ne _ hk]

end Entries

namespace Tree

/-! ### Placing children one after another -/

/-- What stands at an index after an item has been placed. -/
lemma getElem?_placeItem_eq (items : List Tree) (i : ℕ) (v : Tree) (k : ℕ) :
    (placeItem items i v)[k]?
      = if k = i then some v else if k < i then some (items[k]?.getD .null) else items[k]? := by
  by_cases hk : k = i
  · rw [if_pos hk, hk, getElem?_placeItem]
  · rw [if_neg hk]
    rcases getElem?_placeItem_of_ne items hk v with hsame | ⟨hnone, hnull, hlt⟩
    · rw [hsame]
      split
      · next hlt =>
        -- below the index every item is there
        have hlen : k < (placeItem items i v).length :=
          hlt.trans (List.getElem?_eq_some_iff.mp (getElem?_placeItem items i v)).1
        rw [← hsame, List.getElem?_eq_getElem hlen, Option.getD_some]
      · rfl
    · rw [hnull, if_pos hlt, hnone, Option.getD_none]

/-- An item that is placed is in an array that reaches its index. -/
lemma length_placeItem (items : List Tree) (i : ℕ) (v : Tree) :
    (placeItem items i v).length = max items.length (i + 1) := by
  unfold placeItem
  split
  · rw [List.length_set]
    omega
  · rw [List.length_append, List.length_append, List.length_replicate, List.length_singleton]
    omega

/-- Of two items placed at an index the second stays. -/
lemma placeItem_placeItem (items : List Tree) (i : ℕ) (v v' : Tree) :
    placeItem (placeItem items i v) i v' = placeItem items i v' := by
  refine List.ext_getElem? fun k => ?_
  simp only [getElem?_placeItem_eq]
  by_cases hk : k = i
  · rw [if_pos hk, if_pos hk]
  · rw [if_neg hk, if_neg hk]
    split <;> rfl

/-- Items can be placed at two indexes in either order. -/
lemma placeItem_comm (items : List Tree) {i j : ℕ} (hne : i ≠ j) (v w : Tree) :
    placeItem (placeItem items i v) j w = placeItem (placeItem items j w) i v := by
  refine List.ext_getElem? fun k => ?_
  simp only [getElem?_placeItem_eq]
  by_cases hi : k = i
  · have hj : k ≠ j := fun hj => hne (hi.symm.trans hj)
    simp [hi, hne]
  · by_cases hj : k = j
    · simp [hj, hne.symm]
    · simp only [if_neg hi, if_neg hj]
      split <;> split <;> rfl

/-- Of two children placed under a segment the second stays. -/
lemma place_place {t t' c : Tree} {s : Segment} (h : t.place s c = .ok t') (c' : Tree) :
    t'.place s c' = t.place s c' := by
  cases t with
  | array items =>
    rw [place] at h
    cases hi : s.index? with
    | none => simp [hi] at h
    | some i =>
      rw [hi] at h
      obtain rfl : Tree.array (placeItem items i c) = t' := Except.ok.inj h
      simp only [place, hi, placeItem_placeItem]
  | map fields =>
    obtain rfl : Tree.map (Entries.insert fields s.key c) = t' := Except.ok.inj h
    simp only [place, insertField, Entries.insert_insert]
  | null | bool | number | text => exact absurd h (by simp [place])

/-- Placing a child where one stands puts it in its place. -/
lemma place_of_child? {t c : Tree} {s : Segment} (hc : t.child? s = some c) (c' : Tree) :
    t.place s c' = .ok (t.putChild s c') := by
  cases t with
  | array items =>
    obtain ⟨i, hi, hget⟩ := Option.bind_eq_some_iff.mp hc
    have hlt : i < items.length := (List.getElem?_eq_some_iff.mp hget).1
    simp only [place, putChild, hi, placeItem, if_pos hlt]
  | map fields => exact congrArg (Except.ok ∘ Tree.map) (Entries.replace_eq_insert hc c').symm
  | null | bool | number | text => exact absurd hc (by simp [child?])

/-- The child that has been placed is there. -/
lemma child?_place {t t' c : Tree} {s : Segment} (h : t.place s c = .ok t') :
    t'.child? s = some c := by
  by_cases hs : t.Admits s
  · obtain ⟨t'', hplace, hchild⟩ := place_of_admits hs c
    rwa [← Except.ok.inj (hplace.symm.trans h)]
  · obtain ⟨o, ho⟩ := place_of_not_admits hs c
    exact absurd (ho.symm.trans h) (by simp)

/-- Similar children in the same place make similar nodes. -/
lemma Similar.place {t t₁ t₂ c₁ c₂ : Tree} {s : Segment} (h : Similar c₁ c₂) (ht : t.Distinct)
    (h₁ : t.place s c₁ = .ok t₁) (h₂ : t.place s c₂ = .ok t₂) : Similar t₁ t₂ := by
  cases t with
  | array items =>
    rw [Tree.place] at h₁ h₂
    cases hi : s.index? with
    | none => simp [hi] at h₁
    | some i =>
      rw [hi] at h₁ h₂
      obtain rfl : Tree.array (placeItem items i c₁) = t₁ := Except.ok.inj h₁
      obtain rfl : Tree.array (placeItem items i c₂) = t₂ := Except.ok.inj h₂
      refine .array (by rw [length_placeItem, length_placeItem]) fun k x y hx hy => ?_
      rw [getElem?_placeItem_eq] at hx hy
      by_cases hk : k = i
      · rw [if_pos hk] at hx hy
        obtain rfl := Option.some.inj hx
        obtain rfl := Option.some.inj hy
        exact h
      · rw [if_neg hk] at hx hy
        obtain rfl : x = y := Option.some.inj (hx.symm.trans hy)
        exact .refl x
  | map fields =>
    obtain rfl : Tree.map (Entries.insert fields s.key c₁) = t₁ := Except.ok.inj h₁
    obtain rfl : Tree.map (Entries.insert fields s.key c₂) = t₂ := Except.ok.inj h₂
    have hd : Entries.Distinct fields := (distinct_map_iff.mp ht).1
    refine .map (Entries.distinct_insert hd _ _) (Entries.distinct_insert hd _ _) (fun k => ?_)
      fun k x y hx hy => ?_
    · by_cases hk : s.key = k
      · subst hk
        simp only [Entries.get?_insert_self, Option.isSome_some]
      · simp only [Entries.get?_insert_of_ne fields hk]
    · by_cases hk : s.key = k
      · subst hk
        rw [Entries.get?_insert_self] at hx hy
        obtain rfl := Option.some.inj hx
        obtain rfl := Option.some.inj hy
        exact h
      · rw [Entries.get?_insert_of_ne fields hk] at hx hy
        obtain rfl : x = y := Option.some.inj (hx.symm.trans hy)
        exact .refl x
  | null | bool | number | text => exact absurd h₁ (by simp [Tree.place])

/-- Children can be placed under two segments in either order. -/
theorem similar_place_place {t t₁ t₂ t₁₂ t₂₁ c d : Tree} {s s' : Segment} (hne : s ≠ s')
    (ht : t.Distinct) (h₁ : t.place s c = .ok t₁) (h₁₂ : t₁.place s' d = .ok t₁₂)
    (h₂ : t.place s' d = .ok t₂) (h₂₁ : t₂.place s c = .ok t₂₁) : Similar t₁₂ t₂₁ := by
  cases t with
  | array items =>
    rw [Tree.place] at h₁ h₂
    cases hi : s.index? with
    | none => simp [hi] at h₁
    | some i =>
      cases hj : s'.index? with
      | none => simp [hj] at h₂
      | some j =>
        rw [hi] at h₁
        rw [hj] at h₂
        obtain rfl : Tree.array (placeItem items i c) = t₁ := Except.ok.inj h₁
        obtain rfl : Tree.array (placeItem items j d) = t₂ := Except.ok.inj h₂
        simp only [place, hi, hj, Except.ok.injEq] at h₁₂ h₂₁
        rw [← h₁₂, ← h₂₁, placeItem_comm items (Segment.index?_ne hne hi hj)]
        exact .refl _
  | map fields =>
    obtain rfl : Tree.map (Entries.insert fields s.key c) = t₁ := Except.ok.inj h₁
    obtain rfl : Tree.map (Entries.insert fields s'.key d) = t₂ := Except.ok.inj h₂
    obtain rfl := Except.ok.inj h₁₂
    obtain rfl := Except.ok.inj h₂₁
    have hkey : s.key ≠ s'.key := fun h => hne (congrArg Segment.mk h)
    have hd : Entries.Distinct fields := (distinct_map_iff.mp ht).1
    have hsame := Entries.get?_insert_comm fields hkey c d
    refine .map (Entries.distinct_insert (Entries.distinct_insert hd _ _) _ _)
      (Entries.distinct_insert (Entries.distinct_insert hd _ _) _ _) (fun k => by rw [hsame k])
      fun k x y hx hy => ?_
    obtain rfl : x = y := Option.some.inj (hx.symm.trans ((hsame k).trans hy))
    exact .refl x
  | null | bool | number | text => exact absurd h₁ (by simp [place])

/-! ### A write places one child -/

/-- What a write at a location puts under the first segment, from the child that stands there. -/
def written (v : Tree) : List Segment → Option Tree → Tree
  | [], _ => v
  | next :: rest, c => (atParent (setChild v) (next :: rest) (c.getD (freshFor next))).tree

/-- A write that succeeds places a child under the first segment of its location. -/
theorem place_of_write {v t : Tree} {s : Segment} {rest : List Segment}
    (h : (atParent (setChild v) (s :: rest) t).error = none) :
    t.place s (written v rest (t.child? s)) = .ok (atParent (setChild v) (s :: rest) t).tree := by
  cases rest with
  | nil =>
    rw [atParent, setChild] at h ⊢
    cases hplace : t.place s v with
    | ok t' => exact hplace
    | error o =>
      rw [hplace] at h
      exact absurd h (by simp [Outcome.ofExcept, Outcome.fail])
  | cons next rest =>
    rcases atParent_cons_cases (setChild v) s next rest t with ⟨o, hfail, -⟩ | ⟨c, hc, hgo⟩ |
      ⟨-, hnone, t', hplace, hchild, hgo⟩
    · rw [hfail] at h
      exact absurd h (by simp [Outcome.fail])
    · rw [hgo, hc, place_of_child? hc, Outcome.within, putAt_cons hc]
      rfl
    · rw [hgo, hnone, ← place_place hplace, place_of_child? hchild, Outcome.within,
        putAt_cons hchild]
      rfl

/-- A write below the root keeps the kind of the root. -/
lemma kind_write {p : List Segment} (hp : p ≠ []) (v t : Tree) :
    (atParent (setChild v) p t).tree.kind = t.kind := by
  have hbelow : ∀ p' ∈ ({p} : Set (List Segment)), ¬ p' <+: [] := by
    rintro p' rfl hpre
    exact hp (List.prefix_nil.mp hpre)
  obtain ⟨u, hu, hkind⟩ := (untouched_atParent (changedAt_setChild v) p t).kind [] t hbelow rfl
  rwa [← Option.some.inj hu] at hkind

/-- What a write puts in place does not show a write beside it. -/
lemma written_beside {t t' c w : Tree} {s s' : Segment} {rest : List Segment} (hne : s' ≠ s)
    (hplace : t.place s c = .ok t') (hok : t'.WritableAt (s' :: rest)) :
    written w rest (t'.child? s') = written w rest (t.child? s') := by
  have hchanged := changedAt_place hplace
  cases hc : t.child? s' with
  | some d => rw [hchanged.kept s' d hne hc]
  | none =>
    cases hc' : t'.child? s' with
    | none => rfl
    | some d =>
      -- a null that pads an array can be replaced, but not gone into
      obtain ⟨rfl, -, -⟩ := hchanged.padded s' d hne hc hc'
      cases rest with
      | nil => rfl
      | cons next rest =>
        have hnull := (writableAt_cons_iff.mp hok).2 .null hc'
        exact absurd (writableAt_cons_iff.mp hnull).1.1 (by simp [isContainer, kind, Kind.isContainer])

/-- A container created for a segment can be written at any location that starts with it. -/
lemma writableAt_freshFor (s : Segment) (rest : List Segment) : (freshFor s).WritableAt (s :: rest) :=
  writableAt_cons_iff.mpr
    ⟨admits_freshFor s, fun c hc => absurd ((child?_freshFor s s).symm.trans hc) (by simp)⟩

/-- A node of the kind that a segment calls for admits only segments that call for the same kind, if it is
an array. -/
lemma isIndex_of_admits {s s' : Segment} {t : Tree} (hkind : t.kind = (freshFor s).kind)
    (h : t.Admits s') (hs : s.isIndex = true) : s'.isIndex = true := by
  refine h.2 (hkind.trans ?_)
  rw [freshFor, hs, if_pos rfl, kind]

/-- Writes at two locations of which neither lies at or below the other can be made in either order. -/
theorem similar_write_write {p q : List Segment} (hpq : ¬ Comparable p q) {v w t : Tree}
    (ht : t.Distinct) (hp : t.WritableAt p) (hq : t.WritableAt q)
    (hpq' : (atParent (setChild v) p t).tree.WritableAt q)
    (hqp' : (atParent (setChild w) q t).tree.WritableAt p) :
    Similar (atParent (setChild w) q (atParent (setChild v) p t).tree).tree
      (atParent (setChild v) p (atParent (setChild w) q t).tree).tree := by
  induction p generalizing q t with
  | nil => exact absurd (.inl List.nil_prefix) hpq
  | cons s p ih =>
    cases q with
    | nil => exact absurd (comparable_nil_right _) hpq
    | cons s' q =>
      have hok := fun v p t => (atParent_setChild_error_eq_none_iff v p t).mpr
      have h₁ := place_of_write (hok v _ _ hp)
      have h₂ := place_of_write (hok w _ _ hq)
      have h₁₂ := place_of_write (hok w _ _ hpq')
      have h₂₁ := place_of_write (hok v _ _ hqp')
      by_cases hs : s = s'
      · subst hs
        have hbelow : ¬ Comparable p q := fun h => hpq (comparable_cons_cons.mpr ⟨rfl, h⟩)
        rw [place_place h₁, child?_place h₁] at h₁₂
        rw [place_place h₂, child?_place h₂] at h₂₁
        refine Similar.place ?_ ht h₁₂ h₂₁
        have hq₁ := (writableAt_cons_iff.mp hpq').2 _ (child?_place h₁)
        have hp₂ := (writableAt_cons_iff.mp hqp').2 _ (child?_place h₂)
        cases p with
        | nil => exact absurd (.inl List.nil_prefix) hbelow
        | cons next p =>
          cases q with
          | nil => exact absurd (comparable_nil_right _) hbelow
          | cons next' q =>
            cases hc : t.child? s with
            | some c =>
              rw [hc] at hq₁ hp₂
              exact ih hbelow (ht.child hc) ((writableAt_cons_iff.mp hp).2 c hc)
                ((writableAt_cons_iff.mp hq).2 c hc) hq₁ hp₂
            | none =>
              rw [hc] at hq₁ hp₂
              -- each write could go on below the container that the other one had created
              have hindex : next.isIndex = next'.isIndex := by
                rw [Bool.eq_iff_iff]
                exact ⟨isIndex_of_admits (kind_write (List.cons_ne_nil _ _) v _)
                    (writableAt_cons_iff.mp hq₁).1,
                  isIndex_of_admits (kind_write (List.cons_ne_nil _ _) w _)
                    (writableAt_cons_iff.mp hp₂).1⟩
              have hfresh : freshFor next' = freshFor next := by
                rw [freshFor, freshFor, hindex]
              simp only [written, Option.getD_none, Option.getD_some, hfresh] at hq₁ hp₂ ⊢
              exact ih hbelow (distinct_freshFor next) (writableAt_freshFor next p)
                (hfresh ▸ writableAt_freshFor next' q) hq₁ hp₂
      · rw [written_beside (Ne.symm hs) h₁ hpq'] at h₁₂
        rw [written_beside hs h₂ hqp'] at h₂₁
        exact similar_place_place hs ht h₁ h₁₂ h₂ h₂₁

end Tree

namespace Pointer

/-- Values that are written at two locations of which neither lies at or below the other give the same tree
in either order, up to the order of the keys of maps, wherever both orders succeed. -/
theorem similar_set_set {p q : Pointer} (hpq : ¬ Comparable p.segments q.segments) {v w t : Tree}
    (ht : t.Distinct) (hp : (p.set v t).error = none)
    (hpq' : (q.set w (p.set v t).tree).error = none) (hq : (q.set w t).error = none)
    (hqp' : (p.set v (q.set w t).tree).error = none) :
    Tree.Similar (q.set w (p.set v t).tree).tree (p.set v (q.set w t).tree).tree := by
  have hroot : p.isRoot = false := by
    by_contra h
    rw [Bool.not_eq_false, isRoot_eq_true_iff] at h
    exact hpq (.inl (h ▸ List.nil_prefix))
  have hroot' : q.isRoot = false := by
    by_contra h
    rw [Bool.not_eq_false, isRoot_eq_true_iff] at h
    exact hpq (.inr (h ▸ List.nil_prefix))
  simp only [set, hroot, hroot', if_neg Bool.false_ne_true, Outcome.mapError, Option.map_eq_none_iff,
    Tree.atParent_setChild_error_eq_none_iff] at hp hpq' hq hqp' ⊢
  exact Tree.similar_write_write hpq ht hp hq hpq' hqp'

/-- In `{"l": [true]}` writing `/l/2/b` and then `/l/2/a` pads the list and creates a map in it, and so does
the other order, which leaves the keys of the map the other way round. -/
theorem similar_set_set_created : ∃ (p q : Pointer) (t : Tree), p.text = "/l/2/b" ∧ q.text = "/l/2/a" ∧
    t = .map [("l", .array [.bool true])] ∧ ¬ Comparable p.segments q.segments ∧ t.Distinct ∧
    (p.set .null t).error = none ∧ (q.set .null (p.set .null t).tree).error = none ∧
    (q.set .null t).error = none ∧ (p.set .null (q.set .null t).tree).error = none ∧
    (q.set .null (p.set .null t).tree).tree ≠ (p.set .null (q.set .null t).tree).tree ∧
    Tree.Similar (q.set .null (p.set .null t).tree).tree (p.set .null (q.set .null t).tree).tree := by
  let p : Pointer := ⟨[⟨"l"⟩, ⟨"2"⟩, ⟨"b"⟩]⟩
  let q : Pointer := ⟨[⟨"l"⟩, ⟨"2"⟩, ⟨"a"⟩]⟩
  let t : Tree := .map [("l", .array [.bool true])]
  have hpq : ¬ Comparable p.segments q.segments := by decide
  have ht : t.Distinct := by
    simp [t, Tree.Distinct, Tree.DistinctFields, Tree.DistinctItems, Entries.Distinct]
  have hp : (p.set .null t).error = none := by decide
  have hpq' : (q.set .null (p.set .null t).tree).error = none := by decide
  have hq : (q.set .null t).error = none := by decide
  have hqp' : (p.set .null (q.set .null t).tree).error = none := by decide
  exact ⟨p, q, t, rfl, rfl, rfl, hpq, ht, hp, hpq', hq, hqp', by decide,
    similar_set_set hpq ht hp hpq' hq hqp'⟩

end Pointer

end DocumentPath
