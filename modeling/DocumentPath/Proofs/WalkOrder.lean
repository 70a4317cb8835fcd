import Mathlib
import DocumentPath.Proofs.Multiplicity

/-!
# Matches in the order of a walk

Which paths read in document order.  Reading goes on along the stages at a node before it descends, so a
selector visits the matching locations in the order of a walk if a descent is the last thing that it does
(`Stage.visits_eq_filter_walk`).

The first visit takes less: after a descent there may be further stages, as long as they are no literals.
Such stages select by the number of segments alone, so whatever a descent selects lies at or below
something that the stages after it select, and a walk comes to that one first (`Tree.find?_walk_eq`).
-/

namespace DocumentPath

namespace Tree

/-! ### Parts of a walk -/

section Filter

variable {P Q : List Segment → Bool}

/-- A partial function may be replaced by one with the same results on the list. -/
lemma findSome?_congr {α β : Type*} {f g : α → Option β} {l : List α} (h : ∀ a ∈ l, f a = g a) :
    l.findSome? f = l.findSome? g := by
  induction l with
  | nil => rfl
  | cons a l ih =>
    rw [List.forall_mem_cons] at h
    rw [List.findSome?_cons, List.findSome?_cons, h.1, ih h.2]

/-- The part of a walk that leaves the root out. -/
lemma filter_walk_of_root (hroot : P [] = false) (t : Tree) : t.walk.filter P
    = t.members.flatMap fun m => (m.2.walk.filter fun q => P (m.1 :: q)).map (m.1 :: ·) := by
  rw [walk_eq, List.filter_cons, if_neg (by simp [hroot]), List.filter_flatMap]
  refine List.flatMap_congr fun m _ => ?_
  rw [List.filter_map]
  rfl

/-- What is listed for one child only. -/
lemma flatMap_members_only {α : Type*} {t : Tree} (ht : t.Sound) {s : Segment}
    {F : Segment × Tree → List α} (h : ∀ m ∈ t.members, m.1 ≠ s → F m = []) :
    t.members.flatMap F = (t.child? s).elim [] fun c => F (s, c) := by
  cases hc : t.child? s with
  | none =>
    refine List.flatMap_eq_nil_iff.mpr fun m hm => h m hm ?_
    rintro rfl
    rw [(mem_members_iff ht).mp hm] at hc
    exact absurd hc (by simp)
  | some c =>
    obtain ⟨ms, ms', hms⟩ := List.append_of_mem ((mem_members_iff ht).mpr hc)
    have hnodup := nodup_members ht
    rw [hms, List.map_append, List.map_cons, List.nodup_middle, List.nodup_cons, ← List.map_append]
      at hnodup
    have hother : ∀ m ∈ ms ++ ms', F m = [] := by
      intro m hm
      refine h m ?_ fun hs => hnodup.1 (List.mem_map.mpr ⟨m, hm, hs⟩)
      rw [hms]
      simp only [List.mem_append, List.mem_cons] at hm ⊢
      tauto
    rw [List.forall_mem_append] at hother
    rw [hms, List.flatMap_append, List.flatMap_cons, List.flatMap_eq_nil_iff.mpr hother.1,
      List.flatMap_eq_nil_iff.mpr hother.2]
    simp

/-- The part of a walk at and below one location. -/
theorem filter_walk_at {t : Tree} (ht : t.WellFormed) {p : List Segment}
    (h : ∀ q, ¬ p <+: q → P q = false) : t.walk.filter P
      = (t.at? p).elim [] fun c => (c.walk.filter fun q => P (p ++ q)).map (p ++ ·) := by
  induction p generalizing t P with
  | nil => simp
  | cons s p ih =>
    rw [filter_walk_of_root (h [] (by simp)), flatMap_members_only (s := s) ht.sound, at?_cons]
    · cases hc : t.child? s with
      | none => rfl
      | some c =>
        rw [Option.elim_some, Option.bind_some,
          ih (ht.child hc) fun q hq => h (s :: q) fun hpre => hq (List.cons_prefix_cons.mp hpre).2]
        cases c.at? p <;> simp
    · intro m _ hs
      rw [List.map_eq_nil_iff, List.filter_eq_nil_iff]
      intro q _
      rw [h (m.1 :: q) fun hpre => hs (List.cons_prefix_cons.mp hpre).1.symm]
      simp

/-- A walk comes to a location before those below it: if whatever `Q` holds of lies at or below something
that `P` holds of, then the first location that `Q` holds of is the first that `P` does. -/
theorem find?_walk_eq (hPQ : ∀ q, P q = true → Q q = true)
    (hQP : ∀ q, Q q = true → ∃ w, w <+: q ∧ P w = true) (t : Tree) :
    t.walk.find? P = t.walk.find? Q := by
  induction t using byChildren generalizing P Q with
  | step t ih =>
    rw [walk_eq, List.find?_cons, List.find?_cons]
    cases hQ : Q [] with
    | true =>
      obtain ⟨w, hw, hP⟩ := hQP [] hQ
      rw [List.prefix_nil.mp hw] at hP
      rw [hP]
    | false =>
      have hP : P [] = false := by
        by_contra hP
        rw [hPQ [] (by simpa using hP)] at hQ
        exact absurd hQ (by simp)
      rw [hP, List.find?_flatMap, List.find?_flatMap]
      have hmember : ∀ m ∈ t.members, (m.2.walk.map (m.1 :: ·)).find? P
          = (m.2.walk.map (m.1 :: ·)).find? Q := by
        intro m hm
        rw [List.find?_map, List.find?_map]
        refine congrArg _ (ih m.2 (mem_children_of_mem_members hm) (fun q => hPQ (m.1 :: q)) ?_)
        intro q hq
        obtain ⟨w, hw, hPw⟩ := hQP (m.1 :: q) hq
        cases w with
        | nil => exact absurd hPw (by simp [hP])
        | cons s w =>
          obtain ⟨rfl, hw'⟩ := List.cons_prefix_cons.mp hw
          exact ⟨w, hw', hPw⟩
      exact findSome?_congr hmember

end Filter

end Tree

namespace Stage

/-! ### The parts that stages select -/

variable {t : Tree}

/-- Of a walk the terminal stage selects the root. -/
lemma filter_walk_terminal (rest : List Stage) (t : Tree) :
    (t.walk.filter fun q => decide (Selects (.terminal :: rest) q)) = [[]] := by
  simp only [selects_terminal_iff]
  rw [Tree.walk_eq, List.filter_cons, if_pos (by simp), List.filter_flatMap]
  simp

/-- Of a walk a literal selects what comes after its pointer. -/
lemma filter_walk_literal (p : Pointer) (rest : List Stage) (ht : t.WellFormed) :
    (t.walk.filter fun q => decide (Selects (.literal p :: rest) q))
      = (p.at? t).elim [] fun c =>
          (c.walk.filter fun q => decide (Selects rest q)).map (p.segments ++ ·) := by
  rw [Tree.filter_walk_at ht (p := p.segments)]
  · simp only [selects_literal_append_iff]
    rfl
  · intro q hq
    refine decide_eq_false fun hsel => hq ?_
    obtain ⟨r, -, rfl⟩ := selects_literal_iff.mp hsel
    exact List.prefix_append _ r

/-- Of a walk a wildcard selects what comes after each of the members. -/
lemma filter_walk_wildcard (rest : List Stage) (t : Tree) :
    (t.walk.filter fun q => decide (Selects (.wildcard :: rest) q))
      = t.members.flatMap fun m =>
          (m.2.walk.filter fun q => decide (Selects rest q)).map (m.1 :: ·) := by
  rw [Tree.filter_walk_of_root (decide_eq_false (not_selects_wildcard_nil rest))]
  simp only [selects_wildcard_cons_iff]

/-! ### All visits -/

/-- If a descent is the last thing that the stages do, then they visit the matching locations in the order
of a walk, each once. -/
theorem visits_eq_filter_walk {stages : List Stage}
    (h : stages.Pairwise fun stage stage' => stage = .descent → stage' = .terminal)
    (ht : t.WellFormed) : visits stages t = t.walk.filter fun q => decide (Selects stages q) := by
  induction stages generalizing t with
  | nil =>
    refine (List.filter_eq_nil_iff.mpr fun q _ => ?_).symm
    simpa using not_selects_nil q
  | cons stage rest ih =>
    rw [List.pairwise_cons] at h
    cases stage with
    | terminal => rw [filter_walk_terminal, visits]
    | literal p =>
      rw [filter_walk_literal p rest ht, visits]
      cases hc : p.at? t with
      | none => rfl
      | some c => rw [Option.elim_some, Option.elim_some, ih h.2 (ht.at hc)]
    | wildcard =>
      rw [filter_walk_wildcard, visits_wildcard]
      refine List.flatMap_congr fun m hm => ?_
      rw [ih h.2 (ht.child ((Tree.mem_members_iff ht.sound).mp hm))]
    | descent =>
      cases rest with
      | nil =>
        rw [List.filter_eq_nil_iff.mpr fun q _ => ?_, visits, List.flatMap_eq_nil_iff]
        · intro w _
          cases t.at? w <;> rfl
        · simp [selects_descent_iff, not_selects_nil]
      | cons stage rest =>
        obtain rfl : stage = .terminal := h.1 stage List.mem_cons_self rfl
        -- every location is selected
        rw [List.filter_eq_self.mpr fun q _ => ?_, visits]
        · conv_rhs => rw [← List.flatMap_singleton' t.walk]
          refine List.flatMap_congr fun w hw => ?_
          obtain ⟨c, hc⟩ := (Tree.mem_walk_iff ht).mp hw
          rw [hc, Option.elim_some, visits, List.map_singleton, List.append_nil]
        · exact decide_eq_true (selects_descent_iff.mpr ⟨q, [], selects_terminal_iff.mpr rfl, by simp⟩)

/-! ### The first visit -/

/-- Stages without literals select by the number of segments. -/
lemma selects_of_length_eq {stages : List Stage} (h : ∀ p, .literal p ∉ stages)
    {q q' : List Segment} (hq : Selects stages q) (hlen : q'.length = q.length) :
    Selects stages q' := by
  induction stages generalizing q q' with
  | nil => exact absurd hq (not_selects_nil q)
  | cons stage rest ih =>
    have hrest : ∀ p, .literal p ∉ rest := fun p hp => h p (List.mem_cons_of_mem _ hp)
    cases stage with
    | terminal =>
      rw [selects_terminal_iff] at hq ⊢
      rw [hq] at hlen
      exact List.length_eq_zero_iff.mp hlen
    | literal p => exact absurd List.mem_cons_self (h p)
    | wildcard =>
      obtain ⟨s, r, hr, rfl⟩ := selects_wildcard_iff.mp hq
      obtain ⟨s', r', rfl⟩ := List.exists_cons_of_length_eq_add_one hlen
      exact selects_wildcard_cons_iff.mpr (ih hrest hr (Nat.succ_injective hlen))
    | descent =>
      obtain ⟨w, r, hr, rfl⟩ := selects_descent_iff.mp hq
      refine selects_descent_iff.mpr ⟨q'.take w.length, q'.drop w.length, ih hrest hr ?_, ?_⟩
      · rw [List.length_drop, hlen, List.length_append, Nat.add_sub_cancel_left]
      · exact (List.take_append_drop _ _).symm

/-- If no literal comes after a descent, then the first visit is the first location that a walk finds among
the matching ones. -/
theorem head?_visits_eq_find? {stages : List Stage}
    (h : stages.Pairwise fun stage stage' => stage = .descent → ∀ p, stage' ≠ .literal p)
    (ht : t.WellFormed) :
    (visits stages t).head? = t.walk.find? fun q => decide (Selects stages q) := by
  induction stages generalizing t with
  | nil =>
    have hnone : (t.walk.find? fun q => decide (Selects [] q)) = none :=
      List.find?_eq_none.mpr fun q _ => by simpa using not_selects_nil q
    rw [hnone, visits, List.head?_nil]
  | cons stage rest ih =>
    rw [List.pairwise_cons] at h
    rw [← List.head?_filter]
    cases stage with
    | terminal => rw [filter_walk_terminal, visits]
    | literal p =>
      rw [filter_walk_literal p rest ht, visits]
      cases hc : p.at? t with
      | none => rfl
      | some c =>
        rw [Option.elim_some, Option.elim_some, List.head?_map, List.head?_map, ih h.2 (ht.at hc),
          List.head?_filter]
    | wildcard =>
      rw [filter_walk_wildcard, visits_wildcard, List.head?_flatMap, List.head?_flatMap]
      refine Tree.findSome?_congr fun m hm => ?_
      rw [List.head?_map, List.head?_map, List.head?_filter,
        ih h.2 (ht.child ((Tree.mem_members_iff ht.sound).mp hm))]
    | descent =>
      have hfree : ∀ p, .literal p ∉ rest := fun p hp => h.1 _ hp rfl p rfl
      have hfirst : t.walk.find? (fun q => decide (Selects rest q))
          = t.walk.find? fun q => decide (Selects (.descent :: rest) q) := by
        refine Tree.find?_walk_eq (fun q hq => ?_) (fun q hq => ?_) t
        · exact decide_eq_true (selects_descent_iff.mpr ⟨[], q, of_decide_eq_true hq, rfl⟩)
        · obtain ⟨w, r, hr, rfl⟩ := selects_descent_iff.mp (of_decide_eq_true hq)
          refine ⟨(w ++ r).take r.length, List.take_prefix _ _, decide_eq_true ?_⟩
          exact selects_of_length_eq hfree hr (by simp)
      rw [List.head?_filter, ← hfirst, ← ih h.2 ht, visits_descent rest ht, List.head?_append]
      cases hhead : (visits rest t).head? with
      | some q => rfl
      | none =>
        -- nothing that the stages select is in the tree, so a descent finds nothing either
        rw [ih h.2 ht, hfirst, List.find?_eq_none] at hhead
        rw [Option.none_or, List.head?_eq_none_iff, List.eq_nil_iff_forall_not_mem]
        intro q hq
        obtain ⟨hsel, hat⟩ := (mem_visits_iff ht).mp hq
        refine hhead q (Tree.mem_walk_iff ht |>.mpr hat) (decide_eq_true ?_)
        exact selects_descent_iff_or.mpr (.inr hsel)

end Stage

end DocumentPath
