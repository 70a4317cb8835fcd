import Mathlib
import DocumentPath.Proofs.Selections
import DocumentPath.Proofs.SharedElements

/-!
# How often a match is reported

Reading through a selector returns the node at a location once for every split of the location along the
stages.  `Selector.matching` lists the matching locations themselves, each once.  With at most one descent
a location has at most one split (`Stage.splits_injective`), and reading reports every match once
(`Selector.reportsOnce_of_count_le`).  For every path with two descents there is a tree in which a match
is reported again (`Selector.exists_length_matching_lt`): what stands between the two descents is laid out
twice in a row, and the first of them takes the first copy or leaves it to the second.
-/

namespace DocumentPath

namespace Stage

/-! ### One split for each location -/

/-- With at most one descent no location is split in two ways. -/
theorem splits_injective {stages : List Stage} (h : stages.count .descent ≤ 1)
    {pieces pieces' : List (List Segment)} (hp : Splits stages pieces) (hp' : Splits stages pieces')
    (heq : pieces.flatten = pieces'.flatten) : pieces = pieces' := by
  induction stages generalizing pieces pieces' with
  | nil => cases hp
  | cons stage rest ih =>
    have hrest : rest.count .descent ≤ 1 := List.count_le_count_cons.trans h
    cases hp with
    | terminal =>
      cases hp'
      rfl
    | literal p hp =>
      cases hp' with
      | literal _ hp' =>
        exact congrArg _ (ih hrest hp hp' (List.append_cancel_left heq))
    | wildcard s hp =>
      cases hp' with
      | wildcard s' hp' =>
        obtain ⟨hs, hflatten⟩ := List.cons.inj heq
        rw [hs, ih hrest hp hp' hflatten]
    | @descent w _ pieces hp =>
      cases hp' with
      | @descent w' _ pieces' hp' =>
        -- what follows the only descent has one length, so the two descents end at one place
        have hnone : .descent ∉ rest := by
          rw [← List.count_eq_zero]
          rw [List.count_cons_self] at h
          omega
        have hlen : pieces.flatten.length = pieces'.flatten.length :=
          (length_of_selects hnone ⟨pieces, hp, rfl⟩).trans
            (length_of_selects hnone ⟨pieces', hp', rfl⟩).symm
        obtain ⟨hw, hflatten⟩ := List.append_inj' heq hlen
        rw [hw, ih hrest hp hp' hflatten]

/-- With at most one descent no location is visited twice. -/
theorem nodup_visits {stages : List Stage} (h : stages.count .descent ≤ 1) {t : Tree}
    (ht : t.WellFormed) : (visits stages t).Nodup := by
  rw [(perm_visits_splits stages t).nodup_iff]
  refine List.Nodup.map_on (fun pieces hp pieces' hp' heq => ?_) (nodup_splits ht)
  exact splits_injective h ((mem_splits_iff ht).mp hp).1 ((mem_splits_iff ht).mp hp').1 heq

/-! ### Two splits of one location -/

/-- Segments that a stage may take, if a descent takes `w`. -/
def sample (w : List Segment) : Stage → List Segment
  | .literal p => p.segments
  | .wildcard => [⟨"k"⟩]
  | .descent => w
  | .terminal => []

/-- Segments that the stages before some others may take go before those of the others. -/
lemma splits_sample_append {front rest : List Stage} (h : .terminal ∉ front) (w : List Segment)
    {pieces : List (List Segment)} (hrest : Splits rest pieces) :
    Splits (front ++ rest) (front.map (sample w) ++ pieces) := by
  induction front with
  | nil => exact hrest
  | cons stage front ih =>
    rw [List.mem_cons, not_or] at h
    cases stage with
    | literal p => exact .literal p (ih h.2)
    | wildcard => exact .wildcard _ (ih h.2)
    | descent => exact .descent w (ih h.2)
    | terminal => exact absurd rfl h.1

/-- At the end of a nest of keys that can be split in two ways there are two visits. -/
lemma exists_not_nodup_of_splits {stages : List Stage} {pieces pieces' : List (List Segment)}
    (hp : Splits stages pieces) (hp' : Splits stages pieces') (hne : pieces ≠ pieces')
    (heq : pieces.flatten = pieces'.flatten) :
    ∃ t : Tree, t.WellFormed ∧ ¬ (visits stages t).Nodup := by
  have hwf : (Tree.nest pieces.flatten .null).WellFormed :=
    Tree.wellFormed_nest (by decide) _
  have hat : (Tree.nest pieces.flatten .null).at? pieces.flatten = some .null :=
    Tree.at?_nest pieces.flatten .null
  refine ⟨Tree.nest pieces.flatten .null, hwf, fun hnodup => ?_⟩
  rw [(perm_visits_splits _ _).nodup_iff] at hnodup
  exact hne (List.inj_on_of_nodup_map hnodup ((mem_splits_iff hwf).mpr ⟨hp, .null, hat⟩)
    ((mem_splits_iff hwf).mpr ⟨hp', .null, heq ▸ hat⟩) heq)

/-- Stages with two descents split some location in two ways: what the stages between the descents take is
laid out twice, and the first descent takes nothing or the first copy. -/
lemma exists_two_splits {a b c : List Stage}
    (hterminal : .terminal ∉ a ++ .descent :: (b ++ .descent :: c)) :
    ∃ pieces pieces', Splits ((a ++ .descent :: (b ++ .descent :: c)) ++ [.terminal]) pieces
      ∧ Splits ((a ++ .descent :: (b ++ .descent :: c)) ++ [.terminal]) pieces'
      ∧ pieces ≠ pieces' ∧ pieces.flatten = pieces'.flatten := by
  obtain ⟨hat, hbt, hct⟩ : .terminal ∉ a ∧ .terminal ∉ b ∧ .terminal ∉ c := by
    simpa using hterminal
  have hsplits : ∀ v v' : List Segment, Splits ((a ++ .descent :: (b ++ .descent :: c)) ++ [.terminal])
      (a.map (sample []) ++ v :: (b.map (sample []) ++ v' :: (c.map (sample []) ++ []))) := by
    intro v v'
    simp only [List.append_assoc, List.cons_append]
    exact splits_sample_append hat _ (.descent v (splits_sample_append hbt _
      (.descent v' (splits_sample_append hct _ (.terminal [])))))
  -- between the descents stands `m`, and `w` may come before or after it
  set m := (b.map (sample [])).flatten with hm
  obtain ⟨w, hw, hcomm⟩ : ∃ w : List Segment, w ≠ [] ∧ m ++ w = w ++ m := by
    by_cases hnil : m = []
    · exact ⟨[⟨"k"⟩], by simp, by rw [hnil]; rfl⟩
    · exact ⟨m, hnil, rfl⟩
  refine ⟨_, _, hsplits [] w, hsplits w [], fun heq => ?_, ?_⟩
  · exact hw (List.cons.inj (List.append_cancel_left heq)).1.symm
  · have hassoc : ∀ l, m ++ (w ++ l) = w ++ (m ++ l) := by
      intro l
      rw [← List.append_assoc, hcomm, List.append_assoc]
    simp [← hm, hassoc]

/-- Stages with two descents visit some location twice. -/
theorem exists_not_nodup_visits {front : List Stage} (hfront : .terminal ∉ front)
    (h : 2 ≤ front.count .descent) :
    ∃ t : Tree, t.WellFormed ∧ ¬ (visits (front ++ [.terminal]) t).Nodup := by
  have hmem : .descent ∈ front := List.count_pos_iff.mp (by omega)
  obtain ⟨a, r, rfl, ha⟩ := List.eq_append_cons_of_mem hmem
  have hmem' : .descent ∈ r := by
    rw [List.count_append, List.count_eq_zero_of_not_mem ha, List.count_cons_self] at h
    exact List.count_pos_iff.mp (by omega)
  obtain ⟨b, c, rfl, -⟩ := List.eq_append_cons_of_mem hmem'
  obtain ⟨pieces, pieces', hp, hp', hne, heq⟩ := exists_two_splits hfront
  exact exists_not_nodup_of_splits hp hp' hne heq

end Stage

namespace Selector

/-! ### Reports and matches -/

/-- The locations of a tree that a selector matches, each once, in the order of a walk. -/
def matching (s : Selector) (t : Tree) : List (List Segment) := t.walk.filter s.selects

/-- The matching locations are those that the stages select and that have a node. -/
lemma mem_matching_iff {s : Selector} {t : Tree} (ht : t.WellFormed) {q : List Segment} :
    q ∈ s.matching t ↔ Stage.Selects s.stages q ∧ ∃ u, t.at? q = some u := by
  rw [matching, List.mem_filter, selects, decide_eq_true_eq, Tree.mem_walk_iff ht, and_comm]

/-- No location matches twice. -/
lemma nodup_matching (s : Selector) {t : Tree} (ht : t.WellFormed) : (s.matching t).Nodup :=
  ((Tree.perm_walk_locations t).nodup_iff.mpr (Tree.nodup_locations ht)).filter _

/-- The matching locations are those that are visited. -/
lemma mem_matching_iff_mem_visits {s : Selector} {t : Tree} (ht : t.WellFormed) {q : List Segment} :
    q ∈ s.matching t ↔ q ∈ Stage.visits s.stages t := by
  rw [mem_matching_iff ht, Stage.mem_visits_iff ht]

/-- As many nodes are returned as locations are visited. -/
lemma length_all {s : Selector} {t : Tree} (ht : t.WellFormed) :
    (s.all t).length = (Stage.visits s.stages t).length := by
  rw [all_eq_matches, ← List.length_map some, Stage.matches_eq_visits ht, List.length_map]

/-- Reading returns the nodes at the matching locations, one node for each location. -/
def ReportsOnce (s : Selector) (t : Tree) : Prop :=
  ((s.all t).map some).Perm ((s.matching t).map t.at?)

/-- Reading reports every match once, if no location is visited twice. -/
lemma reportsOnce_of_nodup {s : Selector} {t : Tree} (ht : t.WellFormed)
    (h : (Stage.visits s.stages t).Nodup) : s.ReportsOnce t := by
  rw [ReportsOnce, all_eq_matches, Stage.matches_eq_visits ht]
  refine List.Perm.map _ ((List.perm_ext_iff_of_nodup h (nodup_matching s ht)).mpr fun q => ?_)
  exact (mem_matching_iff_mem_visits ht).symm

/-- Reading returns more nodes than there are matches, if a location is visited twice. -/
lemma length_matching_lt {s : Selector} {t : Tree} (ht : t.WellFormed)
    (h : ¬ (Stage.visits s.stages t).Nodup) : (s.matching t).length < (s.all t).length := by
  have hsub : (s.matching t).Subperm (Stage.visits s.stages t) :=
    (nodup_matching s ht).subperm fun q hq => (mem_matching_iff_mem_visits ht).mp hq
  rw [length_all ht]
  refine lt_of_le_of_ne hsub.length_le fun heq => h ?_
  exact (hsub.perm_of_length_le heq.ge).nodup_iff.mp (nodup_matching s ht)

/-- With at most one descent every match is reported once. -/
theorem reportsOnce_of_count_le {s : Selector} (h : s.stages.count .descent ≤ 1) {t : Tree}
    (ht : t.WellFormed) : s.ReportsOnce t :=
  reportsOnce_of_nodup ht (Stage.nodup_visits h ht)

/-- The stages of a compiled path end in their only terminal, and only the literal of the root is empty. -/
lemma exists_front_of_compile {path : String} {s : Selector} (hs : compile path = .ok s) :
    ∃ front, s.stages = front ++ [.terminal] ∧ .terminal ∉ front
      ∧ (.descent ∈ front → ∀ p, .literal p ∈ front → p.segments ≠ []) := by
  rcases stages_of_compile hs with hroot | ⟨steps, hstages⟩
  · exact ⟨[.literal .root], hroot, by simp, by simp⟩
  · obtain ⟨front, hfront, hterminal, hliteral⟩ := Stage.exists_stagesOf_eq steps
    exact ⟨front, hstages.trans hfront, hterminal, fun _ => hliteral⟩

/-- With two descents some match of some tree is reported more than once. -/
theorem exists_length_matching_lt {path : String} {s : Selector} (hs : compile path = .ok s)
    (h : 2 ≤ s.stages.count .descent) :
    ∃ t : Tree, t.WellFormed ∧ (s.matching t).length < (s.all t).length := by
  obtain ⟨front, hfront, hterminal, -⟩ := exists_front_of_compile hs
  have hcount : 2 ≤ front.count .descent := by
    rw [hfront, List.count_append] at h
    simpa using h
  obtain ⟨t, ht, hnodup⟩ := Stage.exists_not_nodup_visits hterminal hcount
  exact ⟨t, ht, length_matching_lt ht (hfront ▸ hnodup)⟩

/-- Which paths report every match once: in every tree those with at most one descent, and not in every
tree those with more, for which reading may even return more nodes than there are matches. -/
theorem reportsOnce_of_compile {path : String} {s : Selector} (hs : compile path = .ok s) :
    (s.stages.count .descent ≤ 1 → ∀ t : Tree, t.WellFormed → s.ReportsOnce t) ∧
      (2 ≤ s.stages.count .descent →
        ∃ t : Tree, t.WellFormed ∧ (s.matching t).length < (s.all t).length) :=
  ⟨fun h _ => reportsOnce_of_count_le h, exists_length_matching_lt hs⟩

/-- The path `/**/*/k` reports every match in `{"k": {"k": {"k": null}}}` once, and `/**/k/**` reports
matches of some tree more than once. -/
theorem reportsOnce_one_descent : ∃ s s' : Selector,
    compile "/**/*/k" = .ok s ∧ compile "/**/k/**" = .ok s'
      ∧ s.ReportsOnce (.map [("k", .map [("k", .map [("k", .null)])])])
      ∧ ∃ t : Tree, t.WellFormed ∧ (s'.matching t).length < (s'.all t).length := by
  have hone : compile "/**/*/k"
      = .ok ⟨"/**/*/k", [.descent, .wildcard, .literal ⟨[⟨"k"⟩]⟩, .terminal]⟩ := rfl
  have htwo : compile "/**/k/**"
      = .ok ⟨"/**/k/**", [.descent, .literal ⟨[⟨"k"⟩]⟩, .descent, .terminal]⟩ := rfl
  have ht : (Tree.map [("k", .map [("k", .map [("k", .null)])])]).WellFormed := by decide
  exact ⟨_, _, hone, htwo, (reportsOnce_of_compile hone).1 (by decide) _ ht,
    (reportsOnce_of_compile htwo).2 (by decide)⟩

/-- The path `/**/**` matches the two nodes of `{"a": 1}` and returns the second of them twice. -/
theorem not_reportsOnce_two_descents : ∃ s : Selector, compile "/**/**" = .ok s
    ∧ (s.matching (.map [("a", .number (.int 1))])).length = 2
    ∧ s.all (.map [("a", .number (.int 1))])
      = [.map [("a", .number (.int 1))], .number (.int 1), .number (.int 1)] :=
  ⟨⟨"/**/**", [.descent, .descent, .terminal]⟩, rfl, by decide, by decide⟩

end Selector

end DocumentPath
