import Mathlib
import DocumentPath.Proofs.Landings

/-!
# Copies at one depth

A selector without a descent has all its targets at one depth.  Then nothing that a run copies lies above
or below anything else that it copies, and the destination stays a container at every node above that
depth (`Tree.OpenTo`), so that no copy fails.

Here the keys of the source may name indexes, and nodes of the destination may stand for several nodes of
the source.  What holds all the same is that the ways to the copied locations stay as they are:
`Tree.reach` follows a location of the source through the destination, as the placement says, and
`reach_copyOver` says that a further copy leaves it where it was.  An element of an array is never placed
behind its own index (`le_of_get?_copyOver`), and from this the elements of an array keep apart
(`LevelCopy.keepsApart`).
-/

namespace DocumentPath

namespace Tree

/-! ### Containers down to a depth -/

/-- Every node above the given depth is a container. -/
def OpenTo : ℕ → Tree → Prop
  | 0, _ => True
  | n + 1, t => t.isContainer = true ∧ ∀ c ∈ t.children, OpenTo n c

/-- The new containers along a path are open to its depth. -/
lemma openTo_freshAlong (rest : List Segment) : OpenTo rest.length (freshAlong rest) := by
  cases rest with
  | nil => trivial
  | cons s rest =>
    refine ⟨isContainer_freshFor s, fun c hc => ?_⟩
    have hnone : (freshFor s).children = [] := by
      unfold freshFor
      cases s.isIndex <;> rfl
    rw [freshAlong, hnone] at hc
    exact absurd hc List.not_mem_nil

/-- A node that is open far enough is ready for a copy. -/
lemma OpenTo.ready {rest : List Segment} {c : Tree} (h : OpenTo rest.length c) :
    Tree.ready rest c = true := by
  cases rest with
  | nil => rfl
  | cons s rest => exact h.1

/-- The field that a copy goes on in is open to one level less. -/
lemma OpenTo.fieldAlong {fields : List (String × Tree)} {rest : List Segment}
    (h : OpenTo (rest.length + 1) (.map fields)) (s : Segment) :
    OpenTo rest.length (fieldAlong fields s rest) := by
  rw [Tree.fieldAlong]
  cases hget : Entries.get? fields s.key with
  | none => exact openTo_freshAlong rest
  | some c => exact h.2 c (List.mem_map_of_mem (f := Prod.snd) (Entries.mem_of_get? hget))

/-- The element that a copy goes on in is open to one level less. -/
lemma OpenTo.getD {items : List Tree} {n i : ℕ} (h : OpenTo (n + 1) (.array items))
    (hi : i < items.length) : OpenTo n (items[i]?.getD .null) := by
  rw [List.getElem?_eq_getElem hi, Option.getD_some]
  exact h.2 _ (List.getElem_mem hi)

/-- In an array that is open far enough every index in use can be reused. -/
lemma OpenTo.seat?_eq {items : List Tree} {rest : List Segment}
    (h : OpenTo (rest.length + 1) (.array items)) (pl : Placement) (e : List Segment) (s : Segment) :
    seat? pl e s rest items = ((pl.get? e).or s.index?).filter fun i => decide (i < items.length) := by
  rw [seat?, slot?]
  congr 1
  funext i
  by_cases hi : i < items.length
  · have hready := OpenTo.ready (h.getD hi)
    rw [List.getElem?_eq_getElem hi, Option.getD_some] at hready
    simp [hi, hready]
  · simp [hi]

/-! ### Following the placement -/

/-- The node of the destination that stands for a location of the source: an element of an array is found
at the index on record for it, and a field, for which nothing is on record, under its key. -/
def reach (pl : Placement) : List Segment → List Segment → Tree → Option Tree
  | _, [], t => some t
  | w, s :: rest, t =>
    match t with
    | .map fields =>
      if pl.get? (w ++ [s]) = none then
        (Entries.get? fields s.key).bind (reach pl (w ++ [s]) rest)
      else none
    | .array items =>
      (pl.get? (w ++ [s])).bind fun k => items[k]?.bind (reach pl (w ++ [s]) rest)
    | _ => none

/-- What stands for a location in a map is reached by the key. -/
lemma reach_map {pl : Placement} {w : List Segment} {s : Segment} {rest : List Segment}
    {fields : List (String × Tree)} {u : Tree} : reach pl w (s :: rest) (.map fields) = some u ↔
      pl.get? (w ++ [s]) = none ∧
        ∃ c, Entries.get? fields s.key = some c ∧ reach pl (w ++ [s]) rest c = some u := by
  rw [reach]
  split
  · next h => simp [h, Option.bind_eq_some_iff]
  · next h => simp [h]

/-- What stands for a location in an array is reached by the index on record. -/
lemma reach_array {pl : Placement} {w : List Segment} {s : Segment} {rest : List Segment}
    {items : List Tree} {u : Tree} : reach pl w (s :: rest) (.array items) = some u ↔
      ∃ k c, pl.get? (w ++ [s]) = some k ∧ items[k]? = some c ∧
        reach pl (w ++ [s]) rest c = some u := by
  simp [reach, Option.bind_eq_some_iff]

/-- Following one location after another. -/
lemma reach_append (pl : Placement) (w e e' : List Segment) (t : Tree) :
    reach pl w (e ++ e') t = (reach pl w e t).bind (reach pl (w ++ e) e') := by
  induction e generalizing w t with
  | nil => simp [reach]
  | cons s e ih =>
    have hw : w ++ [s] ++ e = w ++ s :: e := by simp
    cases t with
    | map fields =>
      rw [List.cons_append, reach, reach]
      split
      · cases Entries.get? fields s.key with
        | none => rfl
        | some c => exact hw ▸ ih (w ++ [s]) c
      · rfl
    | array items =>
      rw [List.cons_append, reach, reach]
      cases pl.get? (w ++ [s]) with
      | none => rfl
      | some k =>
        cases hk : items[k]? with
        | none => simp [hk]
        | some c => simpa [hk] using ih (w ++ [s]) c
    | null | bool | number | text => rfl

/-- Locations are followed alike if the same is on record on the way. -/
lemma reach_congr {pl pl' : Placement} {w p : List Segment}
    (h : ∀ e, e ≠ [] → e <+: p → pl'.get? (w ++ e) = pl.get? (w ++ e)) (t : Tree) :
    reach pl' w p t = reach pl w p t := by
  induction p generalizing w t with
  | nil => rfl
  | cons s rest ih =>
    have hself : pl'.get? (w ++ [s]) = pl.get? (w ++ [s]) := h [s] (by simp) ⟨rest, rfl⟩
    have hbelow : reach pl' (w ++ [s]) rest = reach pl (w ++ [s]) rest := by
      funext c
      refine ih (fun e he hpre => ?_) c
      rw [List.append_assoc]
      exact h (s :: e) (by simp) (List.cons_prefix_cons.mpr ⟨rfl, hpre⟩)
    cases t with
    | map fields => rw [reach, reach, hself, hbelow]
    | array items => rw [reach, reach, hself, hbelow]
    | null | bool | number | text => rfl

/-- What is on the way to a location that can be followed can be followed. -/
lemma isSome_reach_initial {pl : Placement} {w e p : List Segment} {t : Tree} (hpre : e <+: p)
    (h : (reach pl w p t).isSome) : (reach pl w e t).isSome := by
  obtain ⟨e', rfl⟩ := hpre
  rw [reach_append] at h
  exact Option.isSome_of_isSome_bind h

/-- A child on the way to a location that can be followed is followed from what stands for its parent. -/
lemma exists_reach_of_concat_isPrefix {pl : Placement} {e p : List Segment} {s : Segment} {t : Tree}
    (hpre : e ++ [s] <+: p) (h : (reach pl [] p t).isSome) :
    ∃ d u, reach pl [] e t = some d ∧ reach pl e [s] d = some u := by
  obtain ⟨u, hu⟩ := Option.isSome_iff_exists.mp (isSome_reach_initial hpre h)
  rw [reach_append, Option.bind_eq_some_iff] at hu
  obtain ⟨d, hd, hu⟩ := hu
  exact ⟨d, u, hd, hu⟩

/-! ### One step of a copy -/

/-- The elements on the way to a location that are on record can be followed. -/
def Traced (pl : Placement) (w p : List Segment) (t : Tree) : Prop :=
  ∀ e, e ≠ [] → e <+: p → pl.get? (w ++ e) ≠ none → (reach pl w e t).isSome

/-- A step of a copy at a node that is open far enough. -/
structure LevelStep (pl : Placement) (w : List Segment) (s : Segment) (rest : List Segment)
    (t t₁ : Tree) (pl₁ : Placement) (put : Tree → Tree) : Prop
    extends Step pl w s rest t t₁ pl₁ put where
  /-- The copy goes on from a node that is open far enough. -/
  opened : OpenTo rest.length t₁
  /-- With the outcome put back the node is open as far as before. -/
  put_opened : ∀ x, OpenTo rest.length x → OpenTo (rest.length + 1) (put x)
  /-- What is put back is found below the child. -/
  reach_put : ∀ pl' x h, pl'.get? (w ++ [s]) = pl₁.get? (w ++ [s]) →
    reach pl' w (s :: h) (put x) = reach pl' (w ++ [s]) h x
  /-- A location that can be followed leads through the same child of the destination, and then goes on
  from there, or through another child, which stays as it is. -/
  reach_other : ∀ w' s' h u, w'.length = w.length → reach pl w' (s' :: h) t = some u →
    (pl₁.get? (w' ++ [s']) = pl.get? (w' ++ [s']) ∧ reach pl (w' ++ [s']) h t₁ = some u ∧
      ∀ pl' x, pl'.get? (w' ++ [s']) = pl.get? (w' ++ [s']) →
        reach pl' w' (s' :: h) (put x) = reach pl' (w' ++ [s']) h x)
    ∨ (w' ++ [s'] ≠ w ++ [s] ∧ ∀ pl' x,
        (∀ e, e ≠ [] → e <+: s' :: h → pl'.get? (w' ++ e) = pl.get? (w' ++ e)) →
        reach pl' w' (s' :: h) (put x) = some u)

/-- The step into a field. -/
lemma levelStep_map {pl : Placement} {w : List Segment} {s : Segment} {rest : List Segment}
    {fields : List (String × Tree)} (hopen : OpenTo (rest.length + 1) (.map fields))
    (hnone : pl.get? (w ++ [s]) = none) : LevelStep pl w s rest (.map fields)
      (fieldAlong fields s rest) pl fun x => .map (Entries.insert fields s.key x) := by
  refine ⟨step_map (hopen.fieldAlong s).ready hnone, hopen.fieldAlong s, fun x hx => ?_, ?_, ?_⟩
  · refine ⟨rfl, fun c hc => ?_⟩
    obtain ⟨f, hf, rfl⟩ := List.mem_map.mp (show c ∈ List.map Prod.snd _ from hc)
    rcases Entries.mem_insert hf with rfl | hf
    · exact hx
    · exact hopen.2 _ (List.mem_map_of_mem (f := Prod.snd) hf)
  · intro pl' x h hself
    rw [reach, if_pos (hself.trans hnone), Entries.get?_insert_self, Option.bind_some]
  · intro w' s' h u hw hu
    obtain ⟨hnone', c, hc, hcu⟩ := reach_map.mp hu
    by_cases hs : s' = s
    · subst hs
      refine .inl ⟨rfl, by rwa [fieldAlong, hc, Option.getD_some], fun pl' x hself => ?_⟩
      rw [reach, if_pos (hself.trans hnone'), Entries.get?_insert_self, Option.bind_some]
    · refine .inr ⟨fun heq => hs (List.cons.inj (List.append_inj_right heq hw)).1, ?_⟩
      intro pl' x hframe
      rw [reach_congr hframe]
      refine reach_map.mpr ⟨hnone', c, ?_, hcu⟩
      rw [Entries.get?_insert_of_ne _ fun heq => hs (congrArg Segment.mk heq.symm), hc]

/-- The step into an element that is reused. -/
lemma levelStep_reused {pl : Placement} {w : List Segment} {s : Segment} {rest : List Segment}
    {items : List Tree} {i : ℕ} (hopen : OpenTo (rest.length + 1) (.array items))
    (hseat : seat? pl (w ++ [s]) s rest items = some i) : LevelStep pl w s rest (.array items)
      (items[i]?.getD .null) (pl.record (w ++ [s]) i) fun x => .array (items.set i x) := by
  have hi : i < items.length := lt_length_of_seat? hseat
  refine ⟨step_array_reused hseat, hopen.getD hi, fun x hx => ?_, ?_, ?_⟩
  · refine ⟨rfl, fun c hc => ?_⟩
    rcases List.mem_or_eq_of_mem_set hc with hc | rfl
    · exact hopen.2 c hc
    · exact hx
  · intro pl' x h hself
    rw [reach, hself, get?_record_of_seat? hseat, Option.bind_some, List.getElem?_set_self hi,
      Option.bind_some]
  · intro w' s' h u hw hu
    obtain ⟨k, c, hk, hc, hcu⟩ := reach_array.mp hu
    by_cases hki : k = i
    · subst hki
      refine .inl ⟨(Placement.get?_record_of_some hk _ _).trans hk.symm,
        by rwa [hc, Option.getD_some], fun pl' x hself => ?_⟩
      rw [reach, hself, hk, Option.bind_some, List.getElem?_set_self hi, Option.bind_some]
    · refine .inr ⟨fun heq => hki ?_, fun pl' x hframe => ?_⟩
      · rw [seat?, slot?, ← heq, hk, Option.some_or, Option.filter_eq_some_iff] at hseat
        exact Option.some.inj hseat.1
      · rw [reach_congr hframe]
        refine reach_array.mpr ⟨k, c, hk, ?_, hcu⟩
        rw [List.getElem?_set_ne (Ne.symm hki), hc]

/-- The step into a new element. -/
lemma levelStep_new {pl : Placement} {w : List Segment} {s : Segment} {rest : List Segment}
    {items : List Tree} (hopen : OpenTo (rest.length + 1) (.array items))
    (hseat : seat? pl (w ++ [s]) s rest items = none) (hnone : pl.get? (w ++ [s]) = none) :
    LevelStep pl w s rest (.array items) (freshAlong rest) (pl.record (w ++ [s]) items.length)
      fun x => .array (items ++ [x]) := by
  refine ⟨step_array_new hseat hnone, openTo_freshAlong rest, fun x hx => ?_, ?_, ?_⟩
  · refine ⟨rfl, fun c hc => ?_⟩
    rcases List.mem_append.mp hc with hc | hc
    · exact hopen.2 c hc
    · exact List.mem_singleton.mp hc ▸ hx
  · intro pl' x h hself
    rw [reach, hself, Placement.get?_record_self, hnone, Option.getD_none, Option.bind_some,
      List.getElem?_concat_length, Option.bind_some]
  · intro w' s' h u hw hu
    obtain ⟨k, c, hk, hc, hcu⟩ := reach_array.mp hu
    refine .inr ⟨fun heq => ?_, fun pl' x hframe => ?_⟩
    · rw [heq, hnone] at hk
      exact absurd hk (by simp)
    · rw [reach_congr hframe]
      refine reach_array.mpr ⟨k, c, hk, ?_, hcu⟩
      rw [List.getElem?_append_left (List.getElem?_eq_some_iff.mp hc).1, hc]

/-- A copy goes on below the child of a node that is open far enough. -/
theorem OpenTo.step {s : Segment} {rest : List Segment} {t : Tree} {pl : Placement}
    {w : List Segment} (hopen : OpenTo (rest.length + 1) t) (htraced : Traced pl w (s :: rest) t) :
    ∃ t₁ pl₁ put, LevelStep pl w s rest t t₁ pl₁ put := by
  have hself : pl.get? (w ++ [s]) ≠ none → ∃ u, reach pl w [s] t = some u := fun hne =>
    Option.isSome_iff_exists.mp (htraced [s] (by simp) ⟨rest, rfl⟩ hne)
  cases t with
  | map fields =>
    have hnone : pl.get? (w ++ [s]) = none := by
      by_contra hne
      obtain ⟨u, hu⟩ := hself hne
      exact hne (reach_map.mp hu).1
    exact ⟨_, _, _, levelStep_map hopen hnone⟩
  | array items =>
    cases hseat : seat? pl (w ++ [s]) s rest items with
    | some i => exact ⟨_, _, _, levelStep_reused hopen hseat⟩
    | none =>
      have hnone : pl.get? (w ++ [s]) = none := by
        by_contra hne
        obtain ⟨u, hu⟩ := hself hne
        obtain ⟨k, c, hk, hc, -⟩ := reach_array.mp hu
        have hklt : k < items.length := (List.getElem?_eq_some_iff.mp hc).1
        rw [hopen.seat?_eq, hk, Option.some_or, Option.filter_some,
          if_pos (by simpa using hklt)] at hseat
        exact absurd hseat (by simp)
      exact ⟨_, _, _, levelStep_new hopen hseat hnone⟩
  | null | bool | number | text => exact absurd hopen.1 Bool.false_ne_true

section

variable {pl pl₁ : Placement} {w : List Segment} {s : Segment} {rest : List Segment} {t t₁ : Tree}
  {put : Tree → Tree}

/-- A location through the child can be followed from where the copy goes on. -/
lemma LevelStep.reach_below (h : LevelStep pl w s rest t t₁ pl₁ put) {e : List Segment} {u : Tree}
    (hu : reach pl w (s :: e) t = some u) : reach pl₁ (w ++ [s]) e t₁ = some u := by
  rcases h.reach_other w s e u rfl hu with ⟨-, hbelow, -⟩ | ⟨hne, -⟩
  · rw [reach_congr fun e he _ => h.below he, hbelow]
  · exact absurd rfl hne

/-- Below the child the elements that are on record can be followed. -/
lemma LevelStep.traced (h : LevelStep pl w s rest t t₁ pl₁ put)
    (htraced : Traced pl w (s :: rest) t) : Traced pl₁ (w ++ [s]) rest t₁ := by
  intro e he hpre hne
  rw [h.below he, List.append_assoc] at hne
  obtain ⟨u, hu⟩ := Option.isSome_iff_exists.mp
    (htraced (s :: e) (by simp) (List.cons_prefix_cons.mpr ⟨rfl, hpre⟩) hne)
  rw [h.reach_below hu, Option.isSome_some]

end

/-! ### A whole copy -/

/-- A copy to the depth to which the destination is open succeeds and leaves it open; the copied location
can be followed afterwards, to where the copy landed. -/
theorem copyOver_openTo {v : Tree} {w p : List Segment} {pl : Placement} {t : Tree}
    (hopen : OpenTo p.length t) (htraced : Traced pl w p t) :
    (copyOver v w p pl t).1.error = none ∧ OpenTo p.length (copyOver v w p pl t).1.tree ∧
      (reach (copyOver v w p pl t).2 w p (copyOver v w p pl t).1.tree).isSome ∧
      landing w p pl t = (copyOver v w p pl t).2.route w p := by
  induction p generalizing w pl t with
  | nil => exact ⟨rfl, trivial, rfl, rfl⟩
  | cons s rest ih =>
    obtain ⟨t₁, pl₁, put, hstep⟩ := hopen.step htraced
    obtain ⟨hok, hopened, hreach, hlanding⟩ := ih hstep.opened (hstep.traced htraced)
    rw [hstep.copy v]
    refine ⟨hok, hstep.put_opened _ hopened, ?_, ?_⟩
    · rw [hstep.reach_put _ _ _ (get?_copyOver_self v t₁ w s rest pl₁)]
      exact hreach
    · rw [hstep.landing, hlanding, Placement.route, Placement.seat, Placement.seat,
        get?_copyOver_self]

/-- A copy leaves a location that is no deeper than its own, and that can be followed, where it was. -/
theorem reach_copyOver {v : Tree} {w w' p h : List Segment} {pl : Placement} {t : Tree}
    (hopen : OpenTo p.length t) (htraced : Traced pl w p t) (hreach : (reach pl w' h t).isSome)
    (hw : w'.length = w.length) (hlen : h.length ≤ p.length) :
    (reach (copyOver v w p pl t).2 w' h (copyOver v w p pl t).1.tree).isSome ∧
      ∀ e, e ≠ [] → e <+: h → (copyOver v w p pl t).2.get? (w' ++ e) = pl.get? (w' ++ e) := by
  induction p generalizing h w w' pl t with
  | nil =>
    rw [List.length_eq_zero_iff.mp (Nat.le_zero.mp hlen)]
    exact ⟨rfl, fun _ _ _ => rfl⟩
  | cons s rest ih =>
    cases h with
    | nil => exact ⟨rfl, fun e he hpre => absurd (List.prefix_nil.mp hpre) he⟩
    | cons s' h =>
      obtain ⟨u, hu⟩ := Option.isSome_iff_exists.mp hreach
      obtain ⟨t₁, pl₁, put, hstep⟩ := hopen.step htraced
      have hlen' : (w' ++ [s']).length = (w ++ [s]).length := by
        rw [List.length_append, List.length_append, hw]
        rfl
      rw [hstep.copy v]
      rcases hstep.reach_other w' s' h u hw hu with ⟨hself, hbelow, hput⟩ | ⟨hne, hput⟩
      · have hentries : ∀ e, e ≠ [] → pl₁.get? (w' ++ [s'] ++ e) = pl.get? (w' ++ [s'] ++ e) := by
          refine fun e he => hstep.entries _ fun heq => he ?_
          have := congrArg List.length heq
          rw [List.length_append, hlen'] at this
          exact List.length_eq_zero_iff.mp (by omega)
        obtain ⟨hreach', hframe⟩ := ih (h := h) hstep.opened (hstep.traced htraced)
          (by rw [reach_congr fun e he _ => hentries e he, hbelow, Option.isSome_some]) hlen'
          (Nat.le_of_succ_le_succ hlen)
        have hself' := (get?_copyOver_of_length_le (v := v) (t := t₁) (p := rest) hlen'.le).trans hself
        refine ⟨by rwa [hput _ _ hself'], fun e he hpre => ?_⟩
        obtain ⟨x, e, rfl⟩ := List.exists_cons_of_ne_nil he
        obtain ⟨rfl, hpre'⟩ := List.cons_prefix_cons.mp hpre
        by_cases he' : e = []
        · rw [he']
          exact hself'
        · rw [List.append_cons w' x e]
          exact (hframe e he' hpre').trans (hentries e he')
      · have hframe : ∀ e, e ≠ [] → e <+: s' :: h →
            (copyOver v (w ++ [s]) rest pl₁ t₁).2.get? (w' ++ e) = pl.get? (w' ++ e) := by
          intro e he hpre
          obtain ⟨x, e, rfl⟩ := List.exists_cons_of_ne_nil he
          obtain ⟨rfl, -⟩ := List.cons_prefix_cons.mp hpre
          have hother : ∀ r, w' ++ x :: e ≠ w ++ [s] ++ r := fun r heq => by
            rw [List.append_cons] at heq
            exact hne (List.append_inj_left heq hlen')
          rw [get?_copyOver_off_path fun r _ _ => hother r]
          exact hstep.entries _ fun heq => hother [] (heq.trans (List.append_nil _).symm)
        exact ⟨by rw [hput _ _ hframe, Option.isSome_some], hframe⟩

/-- An element that a copy places in an array goes to its own index or to the end, and to the end only if
its own index is not in use. -/
lemma index?_or_length {v : Tree} {w : List Segment} {s : Segment} {rest : List Segment}
    {pl : Placement} {items : List Tree} {k : ℕ} (hopen : OpenTo (rest.length + 1) (.array items))
    (hnone : pl.get? (w ++ [s]) = none)
    (hk : (copyOver v w (s :: rest) pl (.array items)).2.get? (w ++ [s]) = some k) :
    s.index? = some k ∨ (k = items.length ∧ ∀ j, s.index? = some j → items.length ≤ j) := by
  have hfilter := hopen.seat?_eq pl (w ++ [s]) s
  rw [hnone, Option.none_or] at hfilter
  cases hseat : seat? pl (w ++ [s]) s rest items with
  | some i =>
    rw [copyOver_array_reused v w pl hseat, get?_copyOver_self, get?_record_of_seat? hseat] at hk
    rw [hseat, eq_comm, Option.filter_eq_some_iff] at hfilter
    exact .inl (hk ▸ hfilter.1)
  | none =>
    rw [copyOver_array_new v w pl hseat, get?_copyOver_self, Placement.get?_record_self, hnone,
      Option.getD_none] at hk
    refine .inr ⟨(Option.some.inj hk).symm, fun j hj => ?_⟩
    rw [hseat, hj, eq_comm, Option.filter_eq_none_iff] at hfilter
    simpa using hfilter j rfl

/-- A copy places an element of an array at its own index or before. -/
theorem le_of_get?_copyOver {v : Tree} {w p e : List Segment} {j k : ℕ} {pl : Placement} {t : Tree}
    (hopen : OpenTo p.length t) (htraced : Traced pl w p t) (hpre : e ++ [.ofIndex j] <+: p)
    (hj : j < Segment.indexBound) (hnone : pl.get? (w ++ (e ++ [.ofIndex j])) = none)
    (hk : (copyOver v w p pl t).2.get? (w ++ (e ++ [.ofIndex j])) = some k) : k ≤ j := by
  induction e generalizing w p pl t with
  | nil =>
    obtain ⟨rest, rfl, -⟩ := List.cons_prefix_iff.mp hpre
    cases t with
    | map fields =>
      rw [List.nil_append, copyOver_map v w pl (hopen.fieldAlong (.ofIndex j)).ready,
        get?_copyOver_self] at hk
      exact absurd (hnone.symm.trans hk) (by simp)
    | array items =>
      rcases index?_or_length hopen hnone hk with hindex | ⟨rfl, hle⟩
      · rw [Segment.index?_ofIndex hj] at hindex
        exact (Option.some.inj hindex).ge
      · exact hle j (Segment.index?_ofIndex hj)
    | null | bool | number | text => exact absurd hopen.1 Bool.false_ne_true
  | cons x e ih =>
    obtain ⟨rest, rfl, hrest⟩ := List.cons_prefix_iff.mp hpre
    obtain ⟨t₁, pl₁, put, hstep⟩ := hopen.step htraced
    rw [List.cons_append, List.append_cons w] at hnone hk
    rw [hstep.copy v] at hk
    exact ih hstep.opened (hstep.traced htraced) hrest ((hstep.below (by simp)).trans hnone) hk

/-- Where a copy places an element of an array that was there before: at its own index or at the end. -/
theorem get?_copyOver_of_reach {v : Tree} {w p e : List Segment} {s : Segment} {k : ℕ}
    {pl : Placement} {t : Tree} {items : List Tree} (hopen : OpenTo p.length t)
    (htraced : Traced pl w p t) (hreach : reach pl w e t = some (.array items))
    (hpre : e ++ [s] <+: p) (hnone : pl.get? (w ++ (e ++ [s])) = none)
    (hk : (copyOver v w p pl t).2.get? (w ++ (e ++ [s])) = some k) :
    s.index? = some k ∨ k = items.length := by
  induction e generalizing w p pl t with
  | nil =>
    obtain ⟨rest, rfl, -⟩ := List.cons_prefix_iff.mp hpre
    rw [Option.some.inj hreach] at hopen hk
    exact (index?_or_length hopen hnone hk).imp_right And.left
  | cons x e ih =>
    obtain ⟨rest, rfl, hrest⟩ := List.cons_prefix_iff.mp hpre
    obtain ⟨t₁, pl₁, put, hstep⟩ := hopen.step htraced
    rw [List.cons_append, List.append_cons w] at hnone hk
    rw [hstep.copy v] at hk
    exact ih hstep.opened (hstep.traced htraced) (hstep.reach_below hreach) hrest
      ((hstep.below (by simp)).trans hnone) hk

/-! ### Runs of copies -/

/-- What holds between the copies of a run at the depth `n`, when the locations `S` have been copied. -/
structure LevelCopy (source : Tree) (n : ℕ) (S : Set (List Segment)) (pl : Placement) (t : Tree) :
    Prop where
  /-- The destination is open to the depth of the copies. -/
  opened : OpenTo n t
  /-- Only elements on the way to copied locations have been placed. -/
  recorded : pl.Recorded [] S
  /-- The copied locations can be followed. -/
  followed : ∀ h ∈ S, (reach pl [] h t).isSome
  /-- The copied locations are at the depth of the copies. -/
  length : ∀ h ∈ S, h.length = n
  /-- The copied locations are in the source. -/
  located : ∀ h ∈ S, (source.at? h).isSome
  /-- No element of an array of the source is placed behind its own index. -/
  ranked : ∀ w j k items, source.at? w = some (.array items) →
    pl.get? (w ++ [.ofIndex j]) = some k → k ≤ j

namespace LevelCopy

variable {source : Tree} {n : ℕ} {S : Set (List Segment)} {pl : Placement} {t : Tree}

/-- The elements on the way to any location that are on record can be followed. -/
lemma traced (h : LevelCopy source n S pl t) (p : List Segment) : Traced pl [] p t := by
  intro e he _ hne
  obtain ⟨k, hk⟩ := Option.ne_none_iff_exists'.mp hne
  obtain ⟨q, hq, hpre⟩ := h.recorded e k he hk
  exact isSome_reach_initial hpre (h.followed q hq)

/-- An element of an array on the way to a location of the source has an index in range. -/
lemma exists_index {w p : List Segment} {s : Segment}
    {items : List Tree} (hp : (source.at? p).isSome) (hw : source.at? w = some (.array items))
    (hpre : w ++ [s] <+: p) : ∃ i, s = .ofIndex i ∧ i < Segment.indexBound := by
  obtain ⟨r, rfl⟩ := hpre
  obtain ⟨u, hu⟩ := Option.isSome_iff_exists.mp hp
  rw [at?_append, at?_append, hw] at hu
  obtain ⟨u', hu', -⟩ := Option.bind_eq_some_iff.mp hu
  obtain ⟨c, hc, -⟩ := at?_cons_eq_some_iff.mp hu'
  obtain ⟨i, hi, -⟩ := Option.bind_eq_some_iff.mp hc
  exact ⟨i, Segment.eq_ofIndex_of_index? hi, Segment.lt_indexBound_of_index? hi⟩

/-- One more copy at the depth of a run. -/
theorem insert (h : LevelCopy source n S pl t) {p : List Segment} {v : Tree} (hp : p.length = n)
    (hv : source.at? p = some v) : LevelCopy source n (insert p S) (copyOver v [] p pl t).2
      (copyOver v [] p pl t).1.tree := by
  have hopen : OpenTo p.length t := hp ▸ h.opened
  have htraced := h.traced p
  obtain ⟨-, hopened, hreach, -⟩ := copyOver_openTo (v := v) hopen htraced
  refine ⟨hp ▸ hopened, recorded_copyOver h.recorded, ?_, ?_, ?_, ?_⟩
  · intro q hq
    rcases Set.mem_insert_iff.mp hq with rfl | hq
    · exact hreach
    · exact (reach_copyOver hopen htraced (h.followed q hq) rfl
        ((h.length q hq).trans hp.symm).le).1
  · intro q hq
    rcases Set.mem_insert_iff.mp hq with rfl | hq
    · exact hp
    · exact h.length q hq
  · intro q hq
    rcases Set.mem_insert_iff.mp hq with rfl | hq
    · rw [hv, Option.isSome_some]
    · exact h.located q hq
  · intro w j k items hw hk
    cases hold : pl.get? (w ++ [.ofIndex j]) with
    | some k' =>
      rw [get?_copyOver_of_some hold] at hk
      exact h.ranked w j k items hw (hold.trans hk)
    | none =>
      have hpre : w ++ [.ofIndex j] <+: p := prefix_of_get?_copyOver (w := []) hold hk
      obtain ⟨i, hi, hbound⟩ := exists_index (by rw [hv, Option.isSome_some]) hw hpre
      rw [← Segment.ofIndex_injective hi] at hbound
      exact le_of_get?_copyOver hopen htraced hpre hbound hold hk

/-- An element that a copy places anew goes behind the place of an earlier element of its array. -/
lemma get?_copyOver_ne (h : LevelCopy source n S pl t) {w p q : List Segment} {i j k : ℕ} {v : Tree}
    {items : List Tree} (hp : p.length = n) (hw : source.at? w = some (.array items)) (hq : q ∈ S)
    (hi : w ++ [.ofIndex i] <+: q) (hj : w ++ [.ofIndex j] <+: p) (hbound : j < Segment.indexBound)
    (hlt : i < j) (hnone : pl.get? (w ++ [.ofIndex j]) = none)
    (hk : pl.get? (w ++ [.ofIndex i]) = some k) :
    (copyOver v [] p pl t).2.get? (w ++ [.ofIndex j]) ≠ some k := by
  intro hk'
  have hki : k ≤ i := h.ranked w i k items hw hk
  obtain ⟨d, u, hd, hu⟩ := exists_reach_of_concat_isPrefix hi (h.followed q hq)
  cases d with
  | map fields => exact absurd (hk.symm.trans (reach_map.mp hu).1) (by simp)
  | array ds =>
    obtain ⟨k₀, c, hk₀, hc, -⟩ := reach_array.mp hu
    have hklt : k < ds.length := by
      rw [← Option.some.inj (hk₀.symm.trans hk)]
      exact (List.getElem?_eq_some_iff.mp hc).1
    rcases get?_copyOver_of_reach (hp ▸ h.opened) (h.traced p) hd hj hnone hk' with hindex | hlen
    · rw [Segment.index?_ofIndex hbound] at hindex
      have hjk : j = k := Option.some.inj hindex
      omega
    · exact absurd hlen hklt.ne
  | null | bool | number | text => exact absurd hu (by simp [reach])

/-- A copy at the depth of a run keeps apart from the copies before. -/
theorem keepsApart (h : LevelCopy source n S pl t) (hseats : Pointer.SeatsApart source S pl)
    {p : List Segment} {v : Tree} (hp : p.length = n) (hv : source.at? p = some v)
    (hprec : ∀ q ∈ S, source.Precedes q p) :
    Pointer.KeepsApart source S p (landing [] p pl t) pl (copyOver v [] p pl t).2 := by
  have hopen : OpenTo p.length t := hp ▸ h.opened
  have htraced := h.traced p
  obtain ⟨-, -, hreach, hlanding⟩ := copyOver_openTo (v := v) hopen htraced
  have hother : ∀ q ∈ S, _ := fun q hq => reach_copyOver (v := v) hopen htraced (h.followed q hq)
    rfl ((h.length q hq).trans hp.symm).le
  refine ⟨hlanding, fun q hq => (hother q hq).2, ?_⟩
  intro q hq w s s' items hw hs hs' hne
  obtain ⟨i, rfl, hi⟩ := exists_index (h.located q hq) hw hs
  obtain ⟨j, rfl, hj⟩ := exists_index (by rw [hv, Option.isSome_some]) hw hs'
  -- both elements can be followed from the node that stands for the array
  obtain ⟨d, u, hd, hu⟩ := exists_reach_of_concat_isPrefix hs (hother q hq).1
  obtain ⟨d', u', hd', hu'⟩ := exists_reach_of_concat_isPrefix hs' hreach
  obtain rfl := Option.some.inj (hd.symm.trans hd')
  cases d with
  | map fields =>
    rw [Placement.seat, Placement.seat, (reach_map.mp hu).1, (reach_map.mp hu').1]
    exact hne
  | array ds =>
    obtain ⟨k, -, hk, -, -⟩ := reach_array.mp hu
    obtain ⟨k', -, hk', -, -⟩ := reach_array.mp hu'
    rw [Placement.seat, Placement.seat, hk, hk', Option.elim_some, Option.elim_some]
    intro heq
    rw [← Segment.ofIndex_injective heq] at hk'
    have hkold : pl.get? (w ++ [.ofIndex i]) = some k :=
      ((hother q hq).2 _ (by simp) hs).symm.trans hk
    cases hold : pl.get? (w ++ [.ofIndex j]) with
    | some l =>
      -- both have been placed before
      rw [get?_copyOver_of_some hold] at hk'
      obtain ⟨q', hq', hpre⟩ := h.recorded _ l (by simp) hold
      refine hseats q hq q' hq' w _ _ items hw hs hpre hne ?_
      rw [Placement.seat, Placement.seat, hkold, hold, hk']
      rfl
    | none =>
      have hij : i ≤ j := (hprec q hq).2 w _ _ i j items hw (Segment.index?_ofIndex hi)
        (Segment.index?_ofIndex hj) hs hs'
      have hlt : i < j := lt_of_le_of_ne hij fun heq => hne (congrArg Segment.ofIndex heq)
      exact h.get?_copyOver_ne hp hw hq hs hs' hj hlt hold hkold hk'
  | null | bool | number | text => exact absurd hu (by simp [reach])

end LevelCopy

end Tree

end DocumentPath
