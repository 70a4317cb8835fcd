import Mathlib
import DocumentPath.Proofs.RepeatedVisits
import DocumentPath.Proofs.WalkOrder

/-!
# Which paths read in document order

Reading through a path returns the matches in document order, whatever the tree, exactly if nothing comes
after a `**`; and the first node that it returns is the one at the first matching location exactly if no
key comes after a `**` (`Selector.readsInOrder_iff`).

For the other paths `Tree.fork` is a tree that shows it.  It holds what comes after the `**` twice, once
below a further key that comes first.  Reading finds the second copy from the root of the fork, before it
descends to the first.
-/

namespace DocumentPath

namespace Tree

/-- The nodes of a list stand in a tree in this order: each of them has a rank in a walk of the tree, and
the ranks do not decrease. -/
def InDocumentOrder (t : Tree) (L : List Tree) : Prop :=
  ∃ ranks : List ℕ, ranks.Pairwise (· ≤ ·) ∧ L.map some = ranks.map (t.nodes[·]?)

/-- Nodes that are listed as in the document are in its order. -/
lemma inDocumentOrder_of_sublist {t : Tree} {L : List Tree} (h : L.Sublist t.nodes) :
    t.InDocumentOrder L := by
  obtain ⟨ranks, rfl, hranks⟩ := List.sublist_eq_map_getElem h
  refine ⟨ranks.map Fin.val, ?_, ?_⟩
  · exact List.pairwise_map.mpr (hranks.imp fun h => Nat.le_of_lt h)
  · simp

/-- A node of the second part of a walk does not come before a node of the first part. -/
lemma not_inDocumentOrder {t v w : Tree} {L L' ns ns' : List Tree} (hnodes : t.nodes = ns ++ ns')
    (hv : v ∉ ns) (hw : w ∉ ns') (hvL : v ∈ L) (hwL' : w ∈ L') : ¬ t.InDocumentOrder (L ++ L') := by
  rintro ⟨ranks, hranks, hmap⟩
  rw [List.map_append] at hmap
  obtain ⟨rs, rs', rfl, hrs, hrs'⟩ := List.append_eq_map_iff.mp hmap
  obtain ⟨i, hi, hvi⟩ := List.mem_map.mp (hrs ▸ List.mem_map_of_mem hvL : some v ∈ rs.map _)
  obtain ⟨j, hj, hwj⟩ := List.mem_map.mp (hrs' ▸ List.mem_map_of_mem hwL' : some w ∈ rs'.map _)
  have hij : i ≤ j := (List.pairwise_append.mp hranks).2.2 i hi j hj
  have hlen : ns.length ≤ i := by
    by_contra hlt
    rw [hnodes, List.getElem?_append_left (by omega)] at hvi
    exact hv (List.mem_of_getElem? hvi)
  rw [hnodes, List.getElem?_append_right (by omega)] at hwj
  exact hw (List.mem_of_getElem? hwj)

/-! ### Forks -/

/-- A map with two fields that hold the same chain of keys, the second of them from its first key on. -/
def fork (s : Segment) (r : List Segment) : Tree :=
  .map [(s.key ++ "'", nest (s :: r) (.bool false)), (s.key, nest r (.bool true))]

/-- The key of the first field of a fork. -/
def side (s : Segment) : Segment := ⟨s.key ++ "'"⟩

/-- The side key differs from the key that it stands beside. -/
lemma side_ne (s : Segment) : (side s).key ≠ s.key := by simp [side]

/-- Under its key a fork holds the one branch. -/
lemma child?_fork (s : Segment) (r : List Segment) :
    (fork s r).child? s = some (nest r (.bool true)) := by
  have h := side_ne s
  simp [side] at h
  simp [fork, child?, field?, Entries.get?]

/-- Under the side key a fork holds the other branch. -/
lemma child?_fork_side (s : Segment) (r : List Segment) :
    (fork s r).child? (side s) = some (nest (s :: r) (.bool false)) := by
  simp [fork, side, child?, field?, Entries.get?]

/-- A fork is well-formed. -/
lemma wellFormed_fork (s : Segment) (r : List Segment) : (fork s r).WellFormed := by
  rw [wellFormed_iff]
  refine ⟨?_, fun c hc => ?_⟩
  · simp [fork, Sound, Entries.Distinct]
  · rcases List.mem_cons.mp hc with rfl | hc
    · exact wellFormed_nest (by decide) _
    · rw [List.mem_singleton.mp hc]
      exact wellFormed_nest (by decide) _

/-- A nested tree has maps before the nodes of the tree that is nested. -/
lemma nodes_nest (p : List Segment) (t : Tree) :
    ∃ ns, (nest p t).nodes = ns ++ t.nodes ∧ ∀ u ∈ ns, u.kind = .map := by
  induction p with
  | nil => exact ⟨[], rfl, by simp⟩
  | cons s p ih =>
    obtain ⟨ns, hns, hkind⟩ := ih
    refine ⟨nest (s :: p) t :: ns, ?_, ?_⟩
    · rw [nodes_eq, List.cons_append, ← hns]
      simp [nest, children]
    · exact List.forall_mem_cons.mpr ⟨rfl, hkind⟩

/-- A walk of a fork comes to the end of the first field before the end of the second. -/
lemma exists_nodes_nest_fork (p : List Segment) (s : Segment) (r : List Segment) :
    ∃ ns ns', (nest p (fork s r)).nodes = ns ++ ns' ∧ .bool true ∉ ns ∧ .bool false ∉ ns' := by
  obtain ⟨above, habove, hkind⟩ := nodes_nest p (fork s r)
  obtain ⟨first, hfirst, hkind₁⟩ := nodes_nest (s :: r) (.bool false)
  obtain ⟨second, hsecond, hkind₂⟩ := nodes_nest r (.bool true)
  have hmap : ∀ {ns : List Tree}, (∀ u ∈ ns, u.kind = .map) → ∀ b, .bool b ∉ ns := by
    intro ns h b hb
    exact absurd (h _ hb) (by simp [kind])
  refine ⟨above ++ fork s r :: (first ++ [.bool false]), second ++ [.bool true], ?_, ?_, ?_⟩
  · rw [habove, nodes_eq (fork s r)]
    simp [fork, children, hfirst, hsecond, nodes]
  · simp [hmap hkind, hmap hkind₁, fork]
  · simp [hmap hkind₂]

/-- A walk goes down a nest before it goes anywhere else. -/
lemma exists_walk_nest {t : Tree} {r : List Segment} (h : ∃ l, t.walk = r.inits ++ l)
    (p : List Segment) : ∃ l, (nest p t).walk = (p ++ r).inits ++ l := by
  induction p with
  | nil => exact h
  | cons s p ih =>
    obtain ⟨l, hl⟩ := ih
    refine ⟨l.map (s :: ·), ?_⟩
    rw [walk_eq, List.cons_append, List.inits_cons]
    simp [nest, members, hl]

/-- A walk through a fork begins with the branch of the side key. -/
lemma exists_walk_fork (s : Segment) (r : List Segment) :
    ∃ l, (fork s r).walk = (side s :: s :: r).inits ++ l := by
  obtain ⟨l, hl⟩ := exists_walk_nest (r := []) ⟨_, walk_eq (.bool false)⟩ (s :: r)
  rw [List.append_nil] at hl
  refine ⟨l.map (side s :: ·) ++ (nest r (.bool true)).walk.map (s :: ·), ?_⟩
  rw [walk_eq, List.inits_cons]
  simp [fork, side, members, hl]

/-- The end of the side branch is found in a nested fork. -/
lemma at?_nest_fork_side (p : List Segment) (s : Segment) (r : List Segment) :
    (nest p (fork s r)).at? (p ++ side s :: s :: r) = some (.bool false) := by
  rw [at?_nest_append, at?_cons, child?_fork_side, Option.bind_some]
  exact at?_nest (s :: r) (.bool false)

/-- If the end of the first field is looked for, then a walk finds it or a location above it first. -/
lemma exists_find?_walk_fork {p : List Segment} {s : Segment} {r : List Segment}
    {P : List Segment → Bool} (hP : P (p ++ side s :: s :: r) = true) :
    ∃ q, (nest p (fork s r)).walk.find? P = some q ∧ q <+: p ++ side s :: s :: r := by
  obtain ⟨l, hl⟩ := exists_walk_nest (exists_walk_fork s r) p
  obtain ⟨q, hq⟩ := Option.isSome_iff_exists.mp (List.find?_isSome.mpr
    ⟨p ++ side s :: s :: r, (List.mem_inits _ _).mpr List.prefix_rfl, hP⟩)
  refine ⟨q, ?_, (List.mem_inits _ _).mp (List.mem_of_find?_eq_some hq)⟩
  rw [hl, List.find?_append, hq, Option.some_or]

end Tree

namespace Stage

open DocumentPath.Tree (nest fork side)

/-! ### Matches of a descent -/

/-- The matches of stages are the nodes at the locations that they select. -/
lemma mem_matches_iff {stages : List Stage} {t v : Tree} (ht : t.WellFormed) :
    v ∈ Stage.matches stages t ↔ ∃ q, Selects stages q ∧ t.at? q = some v := by
  have hmem : v ∈ Stage.matches stages t ↔ some v ∈ (visits stages t).map t.at? := by
    rw [← matches_eq_visits ht]
    simp
  rw [hmem, List.mem_map]
  constructor
  · rintro ⟨q, hq, hat⟩
    exact ⟨q, ((mem_visits_iff ht).mp hq).1, hat⟩
  · rintro ⟨q, hsel, hat⟩
    exact ⟨q, (mem_visits_iff ht).mpr ⟨hsel, v, hat⟩, hat⟩

/-- A descent reads on at the node before it goes down to the children. -/
lemma matches_descent (rest : List Stage) (t : Tree) : Stage.matches (.descent :: rest) t
    = Stage.matches rest t ++ t.children.flatMap (Stage.matches (.descent :: rest)) := by
  rw [Stage.matches, Tree.nodes_eq, List.flatMap_cons, List.flatMap_assoc]
  rfl

/-- At the end of a nest of what the first stages take, the stages after them read first. -/
lemma exists_matches_nest {front : List Stage} (h : .terminal ∉ front) (rest : List Stage) (t : Tree) :
    ∃ l, Stage.matches (front ++ rest) (nest (front.flatMap (sample [])) t)
      = Stage.matches rest t ++ l := by
  induction front with
  | nil => exact ⟨[], (List.append_nil _).symm⟩
  | cons stage front ih =>
    rw [List.mem_cons, not_or] at h
    obtain ⟨l, hl⟩ := ih h.2
    rw [List.cons_append, List.flatMap_cons]
    cases stage with
    | terminal => exact absurd rfl h.1
    | literal p =>
      have hat : p.at? (nest (p.segments ++ front.flatMap (sample [])) t)
          = some (nest (front.flatMap (sample [])) t) := by
        rw [Tree.nest_append, Pointer.at?]
        exact Tree.at?_nest p.segments (nest (front.flatMap (sample [])) t)
      exact ⟨l, by rw [sample, Stage.matches, hat, Option.elim_some, hl]⟩
    | wildcard => exact ⟨l, by simp [sample, Stage.matches, nest, Tree.children, hl]⟩
    | descent =>
      refine ⟨l ++ (nest (front.flatMap (sample [])) t).children.flatMap
        (Stage.matches (.descent :: (front ++ rest))), ?_⟩
      rw [sample, List.nil_append, matches_descent, hl, List.append_assoc]

/-- The stages before some others take a sample of segments, and the others what they select. -/
lemma selects_sample_append {front rest : List Stage} (h : .terminal ∉ front) (w : List Segment)
    {r : List Segment} (hr : Selects rest r) :
    Selects (front ++ rest) (front.flatMap (sample w) ++ r) := by
  obtain ⟨pieces, hpieces, rfl⟩ := hr
  exact ⟨_, splits_sample_append h w hpieces, by simp [List.flatMap]⟩

/-- Something follows a descent: then there is a tree on which reading is out of order. -/
theorem exists_not_inDocumentOrder {stages a b : List Stage}
    (hstages : stages = (a ++ .descent :: b) ++ [.terminal]) (hterminal : .terminal ∉ a ++ .descent :: b)
    (hliteral : ∀ p, .literal p ∈ b → p.segments ≠ []) (hb : b ≠ []) :
    ∃ t : Tree, t.WellFormed ∧ ¬ t.InDocumentOrder (Stage.matches stages t) := by
  obtain ⟨hat, hbt⟩ : .terminal ∉ a ∧ .terminal ∉ b := by simpa using hterminal
  obtain ⟨s, r, hsr⟩ : ∃ s r, b.flatMap (sample [⟨"k"⟩]) = s :: r := by
    rw [← List.ne_nil_iff_exists_cons, ne_eq, List.flatMap_eq_nil_iff]
    intro hnil
    obtain ⟨stage, hstage⟩ := List.exists_mem_of_ne_nil b hb
    cases stage with
    | literal p => exact hliteral p hstage (hnil _ hstage)
    | wildcard | descent => exact absurd (hnil _ hstage) (by simp [sample])
    | terminal => exact hbt hstage
  have hsel : Selects (b ++ [.terminal]) (s :: r) := by
    rw [← hsr, ← List.append_nil (b.flatMap _)]
    exact selects_sample_append hbt _ (selects_terminal_iff.mpr rfl)
  have hwf := Tree.wellFormed_fork s r
  refine ⟨nest (a.flatMap (sample [])) (fork s r), Tree.wellFormed_nest hwf _, ?_⟩
  obtain ⟨l, hl⟩ := exists_matches_nest hat (.descent :: (b ++ [.terminal])) (fork s r)
  rw [hstages, List.append_assoc, List.cons_append, hl, matches_descent, List.append_assoc]
  obtain ⟨ns, ns', hnodes, htrue, hfalse⟩ :=
    Tree.exists_nodes_nest_fork (a.flatMap (sample [])) s r
  refine Tree.not_inDocumentOrder hnodes htrue hfalse ?_ ?_
  · refine (mem_matches_iff hwf).mpr ⟨s :: r, hsel, ?_⟩
    rw [Tree.at?_cons, Tree.child?_fork, Option.bind_some]
    exact Tree.at?_nest r (.bool true)
  · refine List.mem_append_left _ (List.mem_flatMap.mpr ⟨nest (s :: r) (.bool false), ?_, ?_⟩)
    · exact List.mem_cons_self
    · have hnest := Tree.wellFormed_nest (p := s :: r) (t := .bool false) (by decide)
      refine (mem_matches_iff hnest).mpr ⟨s :: r, selects_descent_iff.mpr ⟨[], _, hsel, rfl⟩, ?_⟩
      exact Tree.at?_nest (s :: r) (.bool false)

/-- If not every stage after a descent is as wanted, then not every stage after the first descent is. -/
lemma exists_after_descent {Q : Stage → Prop} {front : List Stage} {last : Stage}
    (hlast : last ≠ .descent)
    (h : ¬ (front ++ [last]).Pairwise fun stage stage' => stage = .descent → Q stage') :
    ∃ a b : List Stage, front = a ++ .descent :: b ∧ ¬ ∀ stage ∈ b ++ [last], Q stage := by
  have hfree : ∀ {l : List Stage}, .descent ∉ l →
      l.Pairwise fun stage stage' => stage = .descent → Q stage' := by
    intro l hl
    exact List.pairwise_of_forall_mem_list fun stage hstage _ _ heq => absurd (heq ▸ hstage) hl
  have hmem : .descent ∈ front := by
    by_contra hnot
    exact h (hfree (by simpa using ⟨hnot, hlast.symm⟩))
  obtain ⟨a, b, rfl, ha⟩ := List.eq_append_cons_of_mem hmem
  refine ⟨a, b, rfl, fun hQ => h ?_⟩
  rw [List.append_assoc, List.cons_append, List.pairwise_append, List.pairwise_cons]
  refine ⟨hfree ha, ⟨fun stage hstage _ => hQ stage hstage, ?_⟩, ?_⟩
  · exact List.pairwise_of_forall_mem_list fun _ _ stage hstage _ => hQ stage hstage
  · exact fun stage hstage _ _ heq => absurd (heq ▸ hstage) ha

/-- Stages with a literal have a first one. -/
lemma exists_first_literal {p : Pointer} {stages : List Stage} (h : .literal p ∈ stages) :
    ∃ (b : List Stage) (p : Pointer) (c : List Stage),
      stages = b ++ .literal p :: c ∧ ∀ p, .literal p ∉ b := by
  induction stages with
  | nil => exact absurd h List.not_mem_nil
  | cons stage rest ih =>
    by_cases hliteral : ∃ p, stage = .literal p
    · obtain ⟨p, rfl⟩ := hliteral
      exact ⟨[], p, rest, rfl, by simp⟩
    · rcases List.mem_cons.mp h with heq | hmem
      · exact absurd ⟨p, heq.symm⟩ hliteral
      · obtain ⟨b, p, c, rfl, hb⟩ := ih hmem
        refine ⟨stage :: b, p, c, rfl, fun p hp => ?_⟩
        rcases List.mem_cons.mp hp with heq | hmem
        · exact hliteral ⟨p, heq.symm⟩
        · exact hb p hmem

/-- Without literals stages take as many segments as their samples have. -/
lemma selects_append_of_length {front rest : List Stage} (hterminal : .terminal ∉ front)
    (hliteral : ∀ p, .literal p ∉ front) {q r : List Segment} (hr : Selects rest r)
    (hlen : q.length = (front.flatMap (sample [])).length) : Selects (front ++ rest) (q ++ r) := by
  induction front generalizing q with
  | nil =>
    rw [List.length_eq_zero_iff.mp hlen]
    exact hr
  | cons stage front ih =>
    rw [List.mem_cons, not_or] at hterminal
    have hrest : ∀ p, .literal p ∉ front := fun p hp => hliteral p (List.mem_cons_of_mem _ hp)
    rw [List.flatMap_cons, List.length_append] at hlen
    cases stage with
    | terminal => exact absurd rfl hterminal.1
    | literal p => exact absurd List.mem_cons_self (hliteral p)
    | wildcard =>
      obtain ⟨s, q, rfl⟩ := List.exists_cons_of_length_eq_add_one (hlen.trans (Nat.add_comm _ _))
      have hlen' : q.length + 1 = 1 + (front.flatMap (sample [])).length := hlen
      exact selects_wildcard_cons_iff.mpr (ih hterminal.2 hrest (by omega))
    | descent =>
      refine selects_descent_iff.mpr ⟨[], q ++ r, ih hterminal.2 hrest ?_, rfl⟩
      simpa [sample] using hlen

/-- A descent may take the first of the segments on the way to a literal and leave one more after them. -/
lemma selects_beside {stages a b c : List Stage} {p : Pointer}
    (hstages : stages = (a ++ .descent :: (b ++ .literal p :: c)) ++ [.terminal])
    (hterminal : .terminal ∉ a ++ .descent :: (b ++ .literal p :: c)) (hb : ∀ p, .literal p ∉ b)
    (s : Segment) : Selects stages
      ((a ++ b).flatMap (sample []) ++ s :: (p.segments ++ c.flatMap (sample []))) := by
  obtain ⟨hat, hbt, hct⟩ : .terminal ∉ a ∧ .terminal ∉ b ∧ .terminal ∉ c := by simpa using hterminal
  have hchain : Selects (.literal p :: (c ++ [.terminal])) (p.segments ++ c.flatMap (sample [])) := by
    rw [selects_literal_append_iff, ← List.append_nil (c.flatMap _)]
    exact selects_sample_append hct _ (selects_terminal_iff.mpr rfl)
  obtain ⟨x, q, hq⟩ : ∃ x q, b.flatMap (sample []) ++ [s] = x :: q :=
    List.ne_nil_iff_exists_cons.mp (by simp)
  have hlen : q.length = (b.flatMap (sample [])).length := by
    have := congrArg List.length hq
    simp only [List.length_append, List.length_cons, List.length_nil] at this
    omega
  have hdescent : stages = a ++ .descent :: (b ++ .literal p :: (c ++ [.terminal])) := by
    simp [hstages]
  rw [hdescent, List.flatMap_append, List.append_assoc]
  refine selects_sample_append hat [] (selects_descent_iff.mpr
    ⟨[x], q ++ (p.segments ++ c.flatMap (sample [])), ?_, ?_⟩)
  · exact selects_append_of_length hbt hb hchain hlen
  · rw [List.append_cons, hq]
    rfl

/-- A literal comes after a descent: then there is a tree on which the first node that is read is not the
one at the first match of a walk. -/
theorem exists_head?_matches_ne {stages a b c : List Stage} {p : Pointer}
    (hstages : stages = (a ++ .descent :: (b ++ .literal p :: c)) ++ [.terminal])
    (hterminal : .terminal ∉ a ++ .descent :: (b ++ .literal p :: c))
    (hb : ∀ p, .literal p ∉ b) (hp : p.segments ≠ []) :
    ∃ t : Tree, t.WellFormed ∧ (Stage.matches stages t).head?
      ≠ (t.walk.find? fun q => decide (Selects stages q)).bind t.at? := by
  obtain ⟨s, r, hsr⟩ := List.ne_nil_iff_exists_cons.mp hp
  have hsel := selects_beside hstages hterminal hb (side s)
  rw [hsr, List.cons_append] at hsel
  set t := nest ((a ++ b).flatMap (sample [])) (fork s (r ++ c.flatMap (sample []))) with ht
  refine ⟨t, Tree.wellFormed_nest (Tree.wellFormed_fork s _) _, ?_⟩
  -- reading goes down to the fork and takes its second field
  have hread : (Stage.matches stages t).head? = some (.bool true) := by
    have hfront : .terminal ∉ a ++ .descent :: b ∧ .terminal ∉ c := by
      simpa [and_assoc] using hterminal
    have hsplit : stages = (a ++ .descent :: b) ++ .literal p :: (c ++ [.terminal]) := by
      simp [hstages]
    obtain ⟨l, hl⟩ := exists_matches_nest hfront.1 (.literal p :: (c ++ [.terminal]))
      (fork s (r ++ c.flatMap (sample [])))
    obtain ⟨l', hl'⟩ := exists_matches_nest hfront.2 [.terminal] (.bool true)
    have hat : p.at? (fork s (r ++ c.flatMap (sample [])))
        = some (nest (c.flatMap (sample [])) (.bool true)) := by
      rw [Pointer.at?, hsr, Tree.at?_cons, Tree.child?_fork, Option.bind_some, Tree.nest_append]
      exact Tree.at?_nest r _
    have hbefore : (a ++ .descent :: b).flatMap (sample []) = (a ++ b).flatMap (sample []) := by
      simp [sample]
    rw [Stage.matches, hat, Option.elim_some, hl', hbefore] at hl
    rw [hsplit, ht, hl]
    rfl
  -- a walk comes first to the end of the first field or to a node above it
  obtain ⟨q, hq, rest, hrest⟩ := Tree.exists_find?_walk_fork
    (P := fun q => decide (Selects stages q)) (decide_eq_true hsel)
  rw [hread, ht, hq, Option.bind_some]
  intro htrue
  have hfalse := Tree.at?_nest_fork_side ((a ++ b).flatMap (sample [])) s
    (r ++ c.flatMap (sample []))
  rw [← hrest, Tree.at?_append, ← htrue, Option.bind_some] at hfalse
  exact absurd (Tree.eq_nil_of_at? rfl hfalse).2 (by simp)

end Stage

namespace Selector

/-! ### Which paths read in order -/

/-- Nothing comes after a descent. -/
def DescendsLast (s : Selector) : Prop :=
  s.stages.Pairwise fun stage stage' => stage = .descent → stage' = .terminal

/-- No key comes after a descent. -/
def FreeAfterDescent (s : Selector) : Prop :=
  s.stages.Pairwise fun stage stage' => stage = .descent → ∀ p, stage' ≠ .literal p

/-- Reading returns the nodes at the locations that are visited. -/
lemma all_eq_visits (s : Selector) {t : Tree} (ht : t.WellFormed) :
    (s.all t).map some = (Stage.visits s.stages t).map t.at? := by
  rw [all_eq_matches, Stage.matches_eq_visits ht]

/-- The first match is the first of all. -/
lemma first?_eq_head?_all (s : Selector) (t : Tree) : s.first? t = (s.all t).head? := by
  unfold first?
  cases hp : s.asPointer? with
  | none => rfl
  | some p => simp only [all, hp, Option.head?_toList]

/-- The first match is the node at the first location that is visited. -/
lemma first?_eq_head?_visits (s : Selector) {t : Tree} (ht : t.WellFormed) :
    s.first? t = (Stage.visits s.stages t).head?.bind t.at? := by
  have h := congrArg List.head? (all_eq_visits s ht)
  rw [List.head?_map, List.head?_map] at h
  rw [first?_eq_head?_all]
  cases hall : (s.all t).head? <;> cases hvisits : (Stage.visits s.stages t).head? <;>
    simp_all

/-- If nothing comes after a descent, then the nodes at the matching locations are returned in the order of
a walk, each once. -/
theorem all_eq_matching {s : Selector} (h : s.DescendsLast) {t : Tree} (ht : t.WellFormed) :
    (s.all t).map some = (s.matching t).map t.at? := by
  rw [all_eq_visits s ht, Stage.visits_eq_filter_walk h ht]
  rfl

/-- Where descents come last all matches are in document order. -/
lemma inDocumentOrder_all {s : Selector} (h : s.DescendsLast) {t : Tree} (ht : t.WellFormed) :
    t.InDocumentOrder (s.all t) := by
  have hsub : ((s.all t).map some).Sublist (t.nodes.map some) := by
    rw [all_eq_matching h ht, Tree.nodes_eq_walk ht]
    exact (List.filter_sublist).map _
  refine Tree.inDocumentOrder_of_sublist ?_
  simpa using hsub.filterMap id

/-- If no key comes after a descent, then the node at the first matching location is returned first. -/
theorem first?_eq_head?_matching {s : Selector} (h : s.FreeAfterDescent) {t : Tree}
    (ht : t.WellFormed) : s.first? t = (s.matching t).head?.bind t.at? := by
  rw [first?_eq_head?_visits s ht, Stage.head?_visits_eq_find? h ht, matching, List.head?_filter]
  rfl

/-- Where something comes after a descent. -/
lemma exists_descent_of_not_descendsLast {s : Selector} {front : List Stage}
    (hfront : s.stages = front ++ [.terminal]) (h : ¬ s.DescendsLast) :
    ∃ a b : List Stage, front = a ++ .descent :: b ∧ b ≠ [] := by
  rw [DescendsLast, hfront] at h
  obtain ⟨a, b, rfl, hafter⟩ := Stage.exists_after_descent (by simp) h
  refine ⟨a, b, rfl, ?_⟩
  rintro rfl
  exact hafter (by simp)

/-- Where a key comes after a descent. -/
lemma exists_literal_of_not_freeAfterDescent {s : Selector} {front : List Stage}
    (hfront : s.stages = front ++ [.terminal]) (h : ¬ s.FreeAfterDescent) :
    ∃ (a b : List Stage) (p : Pointer) (c : List Stage),
      front = a ++ .descent :: (b ++ .literal p :: c) ∧ ∀ p, .literal p ∉ b := by
  rw [FreeAfterDescent, hfront] at h
  obtain ⟨a, r, rfl, hafter⟩ := Stage.exists_after_descent (by simp) h
  push Not at hafter
  obtain ⟨stage, hmem, p, rfl⟩ := hafter
  obtain ⟨b, p, c, rfl, hb⟩ := Stage.exists_first_literal (by simpa using hmem)
  exact ⟨a, b, p, c, rfl, hb⟩

/-- Which paths read in document order: all nodes are returned in order exactly if nothing comes after a
descent, and the first node is the one at the first match exactly if no key comes after a descent. -/
theorem readsInOrder_iff {path : String} {s : Selector} (hs : compile path = .ok s) :
    ((∀ t : Tree, t.WellFormed → t.InDocumentOrder (s.all t)) ↔ s.DescendsLast)
      ∧ ((∀ t : Tree, t.WellFormed → s.first? t = (s.matching t).head?.bind t.at?)
          ↔ s.FreeAfterDescent) := by
  obtain ⟨front, hfront, hterminal, hliteral⟩ := exists_front_of_compile hs
  refine ⟨⟨fun h => ?_, fun h t ht => inDocumentOrder_all h ht⟩,
    ⟨fun h => ?_, fun h t ht => first?_eq_head?_matching h ht⟩⟩
  · by_contra hlast
    obtain ⟨a, b, rfl, hb⟩ := exists_descent_of_not_descendsLast hfront hlast
    obtain ⟨t, ht, hnot⟩ := Stage.exists_not_inDocumentOrder hfront hterminal
      (fun p hp => hliteral (by simp) p (by simp [hp])) hb
    rw [← all_eq_matches] at hnot
    exact hnot (h t ht)
  · by_contra hfree
    obtain ⟨a, b, p, c, rfl, hb⟩ := exists_literal_of_not_freeAfterDescent hfront hfree
    obtain ⟨t, ht, hne⟩ := Stage.exists_head?_matches_ne hfront hterminal hb
      (hliteral (by simp) p (by simp))
    rw [← all_eq_matches, ← first?_eq_head?_all, ← List.head?_filter] at hne
    exact hne (h t ht)

/-- The path `/*/**` reads in order, and `/**/a` does not, not even its first match. -/
theorem readsInOrder_two_paths : ∃ s s' : Selector,
    compile "/*/**" = .ok s ∧ compile "/**/a" = .ok s'
      ∧ (∀ t : Tree, t.WellFormed → t.InDocumentOrder (s.all t))
      ∧ ∃ t : Tree, t.WellFormed ∧ s'.first? t ≠ (s'.matching t).head?.bind t.at? := by
  have hlast : compile "/*/**" = .ok ⟨"/*/**", [.wildcard, .descent, .terminal]⟩ := rfl
  have hkey : compile "/**/a" = .ok ⟨"/**/a", [.descent, .literal ⟨[⟨"a"⟩]⟩, .terminal]⟩ := rfl
  refine ⟨_, _, hlast, hkey, (readsInOrder_iff hlast).1.mpr ?_, ?_⟩
  · simp [DescendsLast]
  · have hnot := mt (readsInOrder_iff hkey).2.mp (by simp [FreeAfterDescent])
    push Not at hnot
    exact hnot

/-- The path `/**/a` returns the two matches of `{"b": {"a": 1}, "a": 2}` out of order. -/
theorem not_readsInOrder_key_after_descent : ∃ s : Selector, compile "/**/a" = .ok s
    ∧ s.matching (.map [("b", .map [("a", .number (.int 1))]), ("a", .number (.int 2))])
      = [[⟨"b"⟩, ⟨"a"⟩], [⟨"a"⟩]]
    ∧ s.all (.map [("b", .map [("a", .number (.int 1))]), ("a", .number (.int 2))])
      = [.number (.int 2), .number (.int 1)]
    ∧ s.first? (.map [("b", .map [("a", .number (.int 1))]), ("a", .number (.int 2))])
      = some (.number (.int 2))
    ∧ ¬ (Tree.map [("b", .map [("a", .number (.int 1))]), ("a", .number (.int 2))]).InDocumentOrder
        [.number (.int 2), .number (.int 1)] := by
  refine ⟨⟨"/**/a", [.descent, .literal ⟨[⟨"a"⟩]⟩, .terminal]⟩, rfl, by decide, by decide,
    by decide, ?_⟩
  have hnodes : (Tree.map [("b", .map [("a", .number (.int 1))]), ("a", .number (.int 2))]).nodes
      = [.map [("b", .map [("a", .number (.int 1))]), ("a", .number (.int 2))],
        .map [("a", .number (.int 1))], .number (.int 1)] ++ [.number (.int 2)] := rfl
  exact Tree.not_inDocumentOrder hnodes (by decide) (by decide)
    (List.mem_singleton_self (Tree.number (.int 2))) (List.mem_singleton_self (Tree.number (.int 1)))

end Selector

end DocumentPath
