import Mathlib
import DocumentPath.Proofs.DistinctKeys
import DocumentPath.Proofs.Rebuilding
import DocumentPath.Proofs.Selections

/-!
# What a transform replaces

Transforming through a selector with at most one descent rebuilds the tree from the leaves up with every
match of the tree as it was replaced by its image, once (`Selector.apply_eq_rebuild`).

A descent runs the stages after it on a node below which everything has been transformed already, so on a
tree that holds images.  `Tree.Replaces f g hits done` says what such a run does: where the nodes marked
`done` have been replaced before, `g` replaces those marked `hits`.  Without a further descent all matches
of these stages are at one depth (`Stage.length_of_selects`), and what has been replaced before lies
deeper, so no stage enters an image.
-/

namespace DocumentPath

namespace Outcome

variable {ε : Type}

/-- The tree of a change that was carried out. -/
def completed? (o : Outcome ε) : Option Tree :=
  match o.error with
  | none => some o.tree
  | some _ => none

/-- An outcome is complete with its tree if it has no error. -/
lemma completed?_eq_some_iff {o : Outcome ε} {t : Tree} :
    o.completed? = some t ↔ o.error = none ∧ o.tree = t := by
  unfold completed?
  cases o.error <;> simp

/-- The outcome of a computation is complete if the computation has a result. -/
lemma completed?_ofExcept (t : Tree) (e : Except ε Tree) : (ofExcept t e).completed? = e.toOption := by
  cases e <;> rfl

/-- A change of a node is complete in the tree around it if it is at the node. -/
lemma completed?_within (t : Tree) (p : List Segment) (o : Outcome ε) :
    (o.within t p).completed? = o.completed?.map (t.putAt p) := by
  unfold completed? within
  cases o.error <;> rfl

/-- Two changes in turn are complete if both are. -/
lemma completed?_andThen (o : Outcome ε) (g : Tree → Outcome ε) :
    (o.andThen g).completed? = o.completed?.bind fun t => (g t).completed? := by
  unfold andThen
  cases h : o.error with
  | none => simp [completed?, h]
  | some e => simp [completed?, h]

end Outcome

namespace Tree

/-! ### Completed changes of the children -/

section Completed

variable {ε : Type} (g : Tree → Outcome ε)

/-- A change of the items is complete if it is on each of them. -/
lemma mapM_completed_items (items : List Tree) : (items.mapM fun t => (g t).completed?)
    = (changeItems g items).2.elim (some (changeItems g items).1) fun _ => none := by
  induction items with
  | nil => rfl
  | cons t rest ih =>
    rw [mapM_cons_eq, ih, changeItems, Outcome.completed?]
    cases (g t).error with
    | some e => rfl
    | none => cases (changeItems g rest).2 <;> rfl

/-- A change of the fields is complete if it is on each of their values. -/
lemma mapM_completed_fields (fields : List (String × Tree)) :
    ((fields.map Prod.snd).mapM fun t => (g t).completed?).map (fields.map Prod.fst).zip
      = (changeFields g fields).2.elim (some (changeFields g fields).1) fun _ => none := by
  induction fields with
  | nil => rfl
  | cons e rest ih =>
    obtain ⟨k, t⟩ := e
    rw [List.map_cons, List.map_cons, mapM_cons_eq, changeFields, Outcome.completed?]
    cases (g t).error with
    | some e => rfl
    | none =>
      have hrest : ∀ o : Option (List Tree), (o.map ((g t).tree :: ·)).map (k :: rest.map Prod.fst).zip
          = (o.map (rest.map Prod.fst).zip).map ((k, (g t).tree) :: ·) := by
        intro o
        cases o <;> rfl
      rw [Option.bind_some, hrest, ih]
      cases (changeFields g rest).2 <;> rfl

/-- A change of the children is completed if it is on each of them. -/
theorem completed?_changeChildren (t : Tree) : (t.changeChildren g).completed?
    = t.mapChildren? fun _ c => (g c).completed? := by
  have hmembers : (t.members.mapM fun m => (g m.2).completed?)
      = t.children.mapM fun c => (g c).completed? := by
    rw [← map_snd_members, List.mapM_map]
    rfl
  rw [mapChildren?, hmembers]
  cases t with
  | array items =>
    rw [children, mapM_completed_items, changeChildren]
    rcases changeItems g items with ⟨_, _ | _⟩ <;> rfl
  | map fields =>
    have hzip : withChildren (.map fields) = Tree.map ∘ (fields.map Prod.fst).zip := rfl
    rw [hzip, ← Option.map_map, children, mapM_completed_fields, changeChildren]
    rcases changeFields g fields with ⟨_, _ | _⟩ <;> rfl
  | null | bool | number | text => rfl

/-- A change from the leaves up is completed if it is on each child and then on the node. -/
lemma completed?_changeUp (t : Tree) : (t.changeUp g).completed?
    = (t.mapChildren? fun _ c => (c.changeUp g).completed?).bind fun t' => (g t').completed? := by
  rw [changeUp_eq, Outcome.completed?_andThen, completed?_changeChildren]

end Completed

/-! ### Replacing after replacing -/

section Replaces

variable {f g : Tree → Option Tree} {hits done : List Segment → Bool}

/-- Where the nodes marked `done` have been replaced before, `g` replaces those marked `hits`. -/
def Replaces (f g : Tree → Option Tree) (hits done : List Segment → Bool) : Prop :=
  ∀ t : Tree, t.WellFormed → (t.rebuild f done).bind g = t.rebuild f fun q => hits q || done q

/-- Nothing is replaced by leaving a tree alone. -/
lemma replaces_some (hhits : ∀ q, hits q = false) : Replaces f some hits done := by
  intro t _
  have hmarks : (fun q => hits q || done q) = done := by
    funext q
    rw [hhits, Bool.false_or]
  rw [hmarks, Option.bind_fun_some]

/-- The root is replaced by its image. -/
lemma replaces_root (hhits : ∀ q, hits q = decide (q = [])) (hdone : done [] = false) :
    Replaces f f hits done := by
  intro t _
  have hbelow : ∀ (s : Segment) q, (hits (s :: q) || done (s :: q)) = done (s :: q) := by
    intro s q
    rw [hhits]
    exact Bool.false_or _
  rw [rebuild_of_unmarked hdone, rebuild_eq t]
  simp only [hbelow]
  simp only [hhits, decide_true, Bool.true_or, if_true]

/-- What is replaced below each child is replaced by a change of the children. -/
lemma replaces_children {g : Segment → Tree → Option Tree}
    (h : ∀ s, Replaces f (g s) (fun q => hits (s :: q)) fun q => done (s :: q))
    (hhits : hits [] = false) (hdone : done [] = false) : Replaces f (mapChildren? g) hits done := by
  intro t ht
  rw [rebuild_of_unmarked hdone, mapChildren?_bind,
    rebuild_of_unmarked (by rw [hhits, hdone, Bool.or_false])]
  exact mapChildren?_congr fun m hm =>
    h m.1 m.2 (ht.child ((mem_members_iff ht.sound).mp hm))

/-- What is replaced below one child is replaced by a change of that child. -/
lemma replaces_child {s : Segment}
    (h : Replaces f g (fun q => hits (s :: q)) fun q => done (s :: q)) (hhits : hits [] = false)
    (hother : ∀ s' q, s' ≠ s → hits (s' :: q) = false) (hdone : done [] = false) :
    Replaces f (fun t => (t.child? s).elim (some t) fun c => (g c).map (t.putChild s)) hits done := by
  have honly : Replaces f (mapChildren? fun s' c => if s' = s then g c else some c) hits done := by
    refine replaces_children (fun s' => ?_) hhits hdone
    by_cases hs : s' = s
    · simpa only [hs, if_true] using h
    · simpa only [if_neg hs] using replaces_some fun q => hother s' q hs
  intro t ht
  rw [← honly t ht]
  cases ht' : t.rebuild f done with
  | none => rfl
  | some t' =>
    -- above what has been replaced the tree is as it was
    rw [rebuild_of_unmarked hdone] at ht'
    exact (mapChildren?_only (sound_of_mapChildren? ht.sound ht') s g).symm

/-- What is replaced below one location is replaced by a change of the node there. -/
theorem replaces_at {p : List Segment}
    (h : Replaces f g (fun q => hits (p ++ q)) fun q => done (p ++ q))
    (hother : ∀ q, ¬ p <+: q → hits q = false) (hdone : ∀ q, q.length < p.length → done q = false) :
    Replaces f (fun t => (t.at? p).elim (some t) fun c => (g c).map (t.putAt p)) hits done := by
  induction p generalizing hits done with
  | nil =>
    intro t ht
    refine Eq.trans ?_ (h t ht)
    exact Option.bind_congr fun t' _ => Option.map_id'
  | cons s p ih =>
    have hbelow := ih h (fun q hq => hother (s :: q) fun hpre => hq (List.cons_prefix_cons.mp hpre).2)
      fun q hq => hdone (s :: q) (Nat.succ_lt_succ hq)
    have hchild := replaces_child hbelow (hother [] (by simp))
      (fun s' q hs => hother (s' :: q) fun hpre => hs (List.cons_prefix_cons.mp hpre).1.symm)
      (hdone [] (Nat.succ_pos _))
    have hat : (fun t : Tree => (t.at? (s :: p)).elim (some t) fun c => (g c).map (t.putAt (s :: p)))
        = fun t => (t.child? s).elim (some t) fun c =>
          ((c.at? p).elim (some c) fun u => (g u).map (c.putAt p)).map (t.putChild s) := by
      funext t
      rw [at?_cons]
      cases hc : t.child? s with
      | none => rfl
      | some c =>
        cases hu : c.at? p with
        | none => simp [hu, putChild_self hc]
        | some u =>
          have hput : t.putAt (s :: p) = t.putChild s ∘ c.putAt p := by
            funext v
            rw [putAt, hc]
            rfl
          simp [hu, hput]
    rw [hat]
    exact hchild

end Replaces

end Tree

/-! ### Transforming through stages -/

namespace Stage

variable (f : Tree → Except PathError Tree)

/-- A transform through a literal is complete if it is at the node of its pointer. -/
lemma completed?_apply_literal (p : Pointer) (rest : List Stage) (t : Tree) :
    (Stage.apply f (.literal p :: rest) t).completed?
      = (t.at? p.segments).elim (some t) fun c =>
          (Stage.apply f rest c).completed?.map (t.putAt p.segments) := by
  rw [Stage.apply, Pointer.at?]
  cases t.at? p.segments with
  | none => rfl
  | some c => exact Outcome.completed?_within _ _ _

/-- A descent replaces what it selects, if the stages after it replace what they select above nodes that
have been replaced. -/
theorem rebuild_descent {rest : List Stage} (hnone : .descent ∉ rest)
    (h : ∀ done : List Segment → Bool, (∀ q, done q = true → reach rest < q.length) →
      Tree.Replaces (fun u => (f u).toOption) (fun t => (Stage.apply f rest t).completed?)
        (fun q => decide (Selects rest q)) done) {t : Tree} (ht : t.WellFormed) :
    (Stage.apply f (.descent :: rest) t).completed?
      = t.rebuild (fun u => (f u).toOption) fun q => decide (Selects (.descent :: rest) q) := by
  induction t using Tree.byChildren with
  | step t ih =>
    have hchildren : (t.mapChildren? fun _ c => (Stage.apply f (.descent :: rest) c).completed?)
        = t.rebuild (fun u => (f u).toOption)
            fun q => decide (Selects (.wildcard :: .descent :: rest) q) := by
      rw [Tree.rebuild_of_unmarked (decide_eq_false (not_selects_wildcard_nil _))]
      simp only [selects_wildcard_cons_iff]
      exact Tree.mapChildren?_congr fun m hm => ih m.2 (Tree.mem_children_of_mem_members hm)
        (ht.child ((Tree.mem_members_iff ht.sound).mp hm))
    -- what a descent from a child selects lies deeper than what the stages after it select here
    have hdeep : ∀ q, decide (Selects (.wildcard :: .descent :: rest) q) = true →
        reach rest < q.length := by
      intro q hq
      obtain ⟨s, r, hr, rfl⟩ := selects_wildcard_iff.mp (of_decide_eq_true hq)
      obtain ⟨w, r', hr', rfl⟩ := selects_descent_iff.mp hr
      rw [List.length_cons, List.length_append, length_of_selects hnone hr']
      omega
    refine (Tree.completed?_changeUp (Stage.apply f rest) t).trans ?_
    refine (congrArg (Option.bind · _) hchildren).trans ?_
    rw [h _ hdeep t ht]
    refine congrArg (Tree.rebuild _ · t) (funext fun q => ?_)
    rw [← Bool.decide_or, decide_eq_decide, ← selects_descent_iff_or]

/-- Stages with at most one descent replace what they select, also after nodes that lie deeper have been
replaced, if there is no descent. -/
theorem replaces_apply {stages : List Stage} (h : stages.count .descent ≤ 1)
    {done : List Segment → Bool}
    (hdone : ∀ q, done q = true → .descent ∉ stages ∧ reach stages < q.length) :
    Tree.Replaces (fun u => (f u).toOption) (fun t => (Stage.apply f stages t).completed?)
      (fun q => decide (Selects stages q)) done := by
  induction stages generalizing done with
  | nil => exact Tree.replaces_some fun q => decide_eq_false (not_selects_nil q)
  | cons stage rest ih =>
    have hrest : rest.count .descent ≤ 1 := List.count_le_count_cons.trans h
    have hroot : ∀ q, q.length ≤ reach (stage :: rest) → done q = false := by
      intro q hq
      by_contra hne
      have := (hdone q (by simpa using hne)).2
      omega
    cases stage with
    | terminal =>
      have himage : (fun t => (Stage.apply f (.terminal :: rest) t).completed?)
          = fun u => (f u).toOption := by
        funext t
        exact Outcome.completed?_ofExcept t (f t)
      rw [himage]
      exact Tree.replaces_root (fun q => decide_eq_decide.mpr selects_terminal_iff)
        (hroot [] (Nat.zero_le _))
    | literal p =>
      simp only [completed?_apply_literal]
      refine Tree.replaces_at (p := p.segments) ?_ ?_ ?_
      · simp only [selects_literal_append_iff]
        refine ih hrest fun q hq => ?_
        obtain ⟨hnone, hlt⟩ := hdone _ hq
        rw [reach, List.length_append] at hlt
        exact ⟨fun hmem => hnone (List.mem_cons_of_mem _ hmem), by omega⟩
      · intro q hq
        refine decide_eq_false fun hsel => hq ?_
        obtain ⟨r, -, rfl⟩ := selects_literal_iff.mp hsel
        exact List.prefix_append _ r
      · intro q hq
        refine hroot q ?_
        rw [reach]
        omega
    | wildcard =>
      have happly : (fun t => (Stage.apply f (.wildcard :: rest) t).completed?)
          = Tree.mapChildren? fun _ c => (Stage.apply f rest c).completed? := by
        funext t
        exact Tree.completed?_changeChildren _ t
      rw [happly]
      refine Tree.replaces_children (fun s => ?_) (decide_eq_false (not_selects_wildcard_nil rest))
        (hroot [] (Nat.zero_le _))
      simp only [selects_wildcard_cons_iff]
      refine ih hrest fun q hq => ?_
      obtain ⟨hnone, hlt⟩ := hdone _ hq
      rw [reach, List.length_cons] at hlt
      exact ⟨fun hmem => hnone (List.mem_cons_of_mem _ hmem), by omega⟩
    | descent =>
      have hnone : .descent ∉ rest := by
        rw [List.count_cons_self] at h
        exact List.count_eq_zero.mp (by omega)
      have hunmarked : ∀ q, done q = false := by
        intro q
        by_contra hne
        exact (hdone q (by simpa using hne)).1 List.mem_cons_self
      intro t ht
      rw [Tree.rebuild_eq_self hunmarked, Option.bind_some]
      simp only [hunmarked, Bool.or_false]
      exact rebuild_descent f hnone (fun done hdeep => ih hrest fun q hq => ⟨hnone, hdeep q hq⟩) ht

end Stage

/-! ### Transforming through a selector -/

/-- Where a pointer succeeds, it transforms as a selector does. -/
lemma Pointer.apply_eq_stages {p : Pointer} {f : Tree → Except PathError Tree} {t : Tree}
    (h : (p.apply f t).error = none) : p.apply f t = Stage.apply f [.literal p, .terminal] t := by
  rw [Stage.apply, Pointer.at?]
  unfold Pointer.apply at h ⊢
  cases hs : p.tail? with
  | none =>
    rw [List.getLast?_eq_none_iff.mp hs]
    rfl
  | some s =>
    simp only [hs] at h ⊢
    cases hparent : p.head.at? t with
    | none =>
      rw [hparent] at h
      exact absurd h (by simp [Outcome.fail])
    | some parent =>
      have hat : t.at? p.segments = parent.child? s :=
        (Pointer.at?_of_tail? hs t).trans (by rw [hparent, Option.bind_some])
      rw [hat]
      simp only [hparent] at h ⊢
      split
      · cases parent.child? s <;> rfl
      · next hvalue =>
        rw [if_neg hvalue] at h
        exact absurd h (by simp [Outcome.fail])

namespace Selector

/-- A transform through a selector with at most one descent that is carried out rebuilds the tree, with
every match of the tree as it was replaced by its image; and but for the missing parent of a single
location nothing stops a transform that the rebuilding does not fail on. -/
theorem apply_eq_rebuild {s : Selector} (hs : s.stages.count .descent ≤ 1)
    (f : Tree → Except PathError Tree) {t : Tree} (ht : t.WellFormed) :
    ((s.apply f t).error = none →
        t.rebuild (fun u => (f u).toOption) s.selects = some (s.apply f t).tree)
      ∧ (s.asPointer? = none → (t.rebuild (fun u => (f u).toOption) s.selects).isSome →
          (s.apply f t).error = none) := by
  have hstages : (Stage.apply f s.stages t).completed?
      = t.rebuild (fun u => (f u).toOption) s.selects := by
    have hnothing : ∀ q : List Segment, (fun _ => false) q = true →
        .descent ∉ s.stages ∧ Stage.reach s.stages < q.length := by simp
    have h := Stage.replaces_apply f hs hnothing t ht
    rw [Tree.rebuild_eq_self (fun _ => rfl), Option.bind_some] at h
    simp only [Bool.or_false] at h
    exact h
  unfold apply
  cases hp : s.asPointer? with
  | none =>
    rw [← hstages]
    refine ⟨fun h => Outcome.completed?_eq_some_iff.mpr ⟨h, rfl⟩, fun _ h => ?_⟩
    obtain ⟨t', ht'⟩ := Option.isSome_iff_exists.mp h
    exact (Outcome.completed?_eq_some_iff.mp ht').1
  | some p =>
    refine ⟨fun h => ?_, fun hnone => absurd hnone (by simp)⟩
    rw [asPointer?_eq_some_iff.mp hp, ← Pointer.apply_eq_stages h] at hstages
    rw [← hstages]
    exact Outcome.completed?_eq_some_iff.mpr ⟨h, rfl⟩

/-- Wrapping both matches of `/**/a` in `{"a": {"a": null}}` wraps each of them once, and this is the tree
that rebuilding makes. -/
theorem apply_eq_rebuild_wrapping : ∃ (s : Selector) (t t' : Tree), compile "/**/a" = .ok s ∧
    t = .map [("a", .map [("a", .null)])] ∧
    t' = .map [("a", .map [("w", .map [("a", .map [("w", .null)])])])] ∧ t.WellFormed ∧
    s.apply (fun u => .ok (.map [("w", u)])) t = .ok t' ∧
    t.rebuild (fun u => some (.map [("w", u)])) s.selects = some t' := by
  have ht : (Tree.map [("a", .map [("a", .null)])]).WellFormed := by decide
  refine ⟨⟨"/**/a", [.descent, .literal ⟨[⟨"a"⟩]⟩, .terminal]⟩, _, _, rfl, rfl, rfl, ht, rfl, ?_⟩
  exact (apply_eq_rebuild (by decide) (fun u => .ok (.map [("w", u)])) ht).1 rfl

end Selector

end DocumentPath
