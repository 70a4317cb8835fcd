import Mathlib
import DocumentPath.Proofs.UniformPruning

/-!
# What stages select

`Stage.Selects` taken apart stage by stage: a stage before the terminal takes a first part of the
segments (`Stage.Takes`) and leaves the rest to the stages after it (`selects_cons_iff`).  A descent
that goes on to a match may as well stop earlier, as `Selects.of_isPrefix` says: a match of a descent
above a match of the stages after the descent is itself a match of these stages.

Stages with `Stage.EndsPlainly` end in a wildcard or in a key that names no index.  Whether they select
an element of an array does not depend on its index, so `Stage.clear`, which keeps what is neither a
match nor below one, prunes uniformly (`uniform_clear`).

Stages bundle neighbouring keys.  `Stage.steps` lists the segments of a list of stages one at a time, and a
key that comes first selects below the child that it names (`selects_stagesOf_key`).
-/

namespace DocumentPath

open Selector (stagesOf)

namespace Stage

/-! ### One stage at a time -/

/-- What a stage before the terminal stands for. -/
def Takes : Stage → List Segment → Prop
  | .literal p, w => w = p.segments
  | .wildcard, w => ∃ s, w = [s]
  | .descent, _ => True
  | .terminal, _ => False

/-- No stages select nothing. -/
lemma not_selects_nil (q : List Segment) : ¬ Selects [] q := by
  rintro ⟨_, h, -⟩
  cases h

/-- A terminal stage selects the node itself. -/
lemma selects_terminal_iff {rest : List Stage} {q : List Segment} :
    Selects (.terminal :: rest) q ↔ q = [] := by
  constructor
  · rintro ⟨_, h, rfl⟩
    cases h
    rfl
  · rintro rfl
    exact ⟨[], .terminal rest, rfl⟩

/-- A stage takes a first part of what is selected, and the stages after it select the rest. -/
theorem selects_cons_iff {stage : Stage} {rest : List Stage} {q : List Segment}
    (h : stage ≠ .terminal) :
    Selects (stage :: rest) q ↔ ∃ w r, stage.Takes w ∧ Selects rest r ∧ q = w ++ r := by
  constructor
  · rintro ⟨_, hsplits, rfl⟩
    cases hsplits with
    | terminal => exact absurd rfl h
    | @literal p _ pieces hrest => exact ⟨p.segments, _, rfl, ⟨pieces, hrest, rfl⟩, rfl⟩
    | @wildcard s _ pieces hrest => exact ⟨[s], _, ⟨s, rfl⟩, ⟨pieces, hrest, rfl⟩, rfl⟩
    | @descent w _ pieces hrest => exact ⟨w, _, trivial, ⟨pieces, hrest, rfl⟩, rfl⟩
  · rintro ⟨w, _, hw, ⟨pieces, hrest, rfl⟩, rfl⟩
    cases stage with
    | literal p =>
      obtain rfl : w = p.segments := hw
      exact ⟨_, .literal p hrest, rfl⟩
    | wildcard =>
      obtain ⟨s, rfl⟩ := hw
      exact ⟨_, .wildcard s hrest, rfl⟩
    | descent => exact ⟨_, .descent w hrest, rfl⟩
    | terminal => exact hw.elim

/-- A literal stage selects what comes after its pointer. -/
lemma selects_literal_iff {p : Pointer} {rest : List Stage} {q : List Segment} :
    Selects (.literal p :: rest) q ↔ ∃ r, Selects rest r ∧ q = p.segments ++ r := by
  rw [selects_cons_iff (by simp)]
  exact ⟨fun ⟨_, r, hw, hr, hq⟩ => ⟨r, hr, hw ▸ hq⟩, fun ⟨r, hr, hq⟩ => ⟨_, r, rfl, hr, hq⟩⟩

/-- A wildcard selects what comes after one segment. -/
lemma selects_wildcard_iff {rest : List Stage} {q : List Segment} :
    Selects (.wildcard :: rest) q ↔ ∃ s r, Selects rest r ∧ q = s :: r := by
  rw [selects_cons_iff (by simp)]
  constructor
  · rintro ⟨_, r, ⟨s, rfl⟩, hr, rfl⟩
    exact ⟨s, r, hr, rfl⟩
  · rintro ⟨s, r, hr, rfl⟩
    exact ⟨[s], r, ⟨s, rfl⟩, hr, rfl⟩

/-- After the segments of a literal the stages after it select. -/
lemma selects_literal_append_iff {p : Pointer} {rest : List Stage} {q : List Segment} :
    Selects (.literal p :: rest) (p.segments ++ q) ↔ Selects rest q := by
  rw [selects_literal_iff]
  exact ⟨fun ⟨_, hr, hq⟩ => List.append_cancel_left hq ▸ hr, fun hq => ⟨q, hq, rfl⟩⟩

/-- Below every child a wildcard selects what the stages after it select. -/
lemma selects_wildcard_cons_iff {rest : List Stage} {s : Segment} {q : List Segment} :
    Selects (.wildcard :: rest) (s :: q) ↔ Selects rest q := by
  rw [selects_wildcard_iff]
  exact ⟨fun ⟨_, _, hr, hq⟩ => (List.cons.inj hq).2 ▸ hr, fun hq => ⟨s, q, hq, rfl⟩⟩

/-- A wildcard never selects the node itself. -/
lemma not_selects_wildcard_nil (rest : List Stage) : ¬ Selects (.wildcard :: rest) [] := by
  rw [selects_wildcard_iff]
  rintro ⟨_, _, -, hq⟩
  exact absurd hq (by simp)

/-- A descent selects what the stages after it select, there or from a node below. -/
lemma selects_descent_iff {rest : List Stage} {q : List Segment} :
    Selects (.descent :: rest) q ↔ ∃ w r, Selects rest r ∧ q = w ++ r := by
  rw [selects_cons_iff (by simp)]
  exact ⟨fun ⟨w, r, _, hr, hq⟩ => ⟨w, r, hr, hq⟩, fun ⟨w, r, hr, hq⟩ => ⟨w, r, trivial, hr, hq⟩⟩

/-- A descent goes on at the node or descends from one of its children. -/
theorem selects_descent_iff_or {rest : List Stage} {q : List Segment} :
    Selects (.descent :: rest) q
      ↔ Selects rest q ∨ Selects (.wildcard :: .descent :: rest) q := by
  rw [selects_wildcard_iff, selects_descent_iff]
  simp only [selects_descent_iff]
  constructor
  · rintro ⟨w, r, hr, rfl⟩
    cases w with
    | nil => exact .inl hr
    | cons s w => exact .inr ⟨s, w ++ r, ⟨w, r, hr, rfl⟩, rfl⟩
  · rintro (hr | ⟨s, -, ⟨w, r, hr, rfl⟩, rfl⟩)
    · exact ⟨[], q, hr, rfl⟩
    · exact ⟨s :: w, r, hr, rfl⟩

/-- Whether stages select a location is decided stage by stage: a descent tries every end of it. -/
instance decidableSelects : (stages : List Stage) → (q : List Segment) → Decidable (Selects stages q)
  | [], q => isFalse (not_selects_nil q)
  | .terminal :: _, _ => decidable_of_iff _ selects_terminal_iff.symm
  | .literal p :: rest, q =>
    haveI := decidableSelects rest (q.drop p.segments.length)
    decidable_of_iff (p.segments <+: q ∧ Selects rest (q.drop p.segments.length)) <| by
      rw [selects_literal_iff]
      constructor
      · rintro ⟨⟨r, rfl⟩, h⟩
        exact ⟨r, by rwa [List.drop_left] at h, rfl⟩
      · rintro ⟨r, h, rfl⟩
        exact ⟨List.prefix_append _ r, by rwa [List.drop_left]⟩
  | .wildcard :: rest, [] => isFalse (not_selects_wildcard_nil rest)
  | .wildcard :: rest, _ :: r =>
    haveI := decidableSelects rest r
    decidable_of_iff _ selects_wildcard_cons_iff.symm
  | .descent :: rest, q =>
    haveI : DecidablePred (Selects rest) := decidableSelects rest
    decidable_of_iff (∃ r ∈ q.tails, Selects rest r) <| by
      rw [selects_descent_iff]
      constructor
      · rintro ⟨r, hr, h⟩
        obtain ⟨w, rfl⟩ := (List.mem_tails r q).mp hr
        exact ⟨w, r, h, rfl⟩
      · rintro ⟨w, r, h, rfl⟩
        exact ⟨r, (List.mem_tails r _).mpr (List.suffix_append w r), h⟩

/-- The number of segments that stages take before their first descent. -/
def reach : List Stage → ℕ
  | .literal p :: rest => p.segments.length + reach rest
  | .wildcard :: rest => reach rest + 1
  | .descent :: _ | .terminal :: _ | [] => 0

/-- Without a descent all selected locations are at one depth. -/
theorem length_of_selects {stages : List Stage} (h : .descent ∉ stages) {q : List Segment}
    (hq : Selects stages q) : q.length = reach stages := by
  induction stages generalizing q with
  | nil => exact absurd hq (not_selects_nil q)
  | cons stage rest ih =>
    rw [List.mem_cons, not_or] at h
    cases stage with
    | terminal =>
      rw [selects_terminal_iff.mp hq]
      rfl
    | literal p =>
      obtain ⟨r, hr, rfl⟩ := selects_literal_iff.mp hq
      rw [List.length_append, ih h.2 hr, reach]
    | wildcard =>
      obtain ⟨s, r, hr, rfl⟩ := selects_wildcard_iff.mp hq
      rw [List.length_cons, ih h.2 hr, reach]
    | descent => exact absurd rfl h.1

/-- Above a match of some stages, what a descent and these stages select, these stages select
themselves. -/
theorem Selects.of_isPrefix {stages : List Stage} {q q' : List Segment} (hq' : Selects stages q')
    (hpre : q <+: q') (hq : Selects (.descent :: stages) q) : Selects stages q := by
  induction stages generalizing q q' with
  | nil => exact absurd hq' (not_selects_nil q')
  | cons stage rest ih =>
    obtain ⟨u, r, hr, rfl⟩ := selects_descent_iff.mp hq
    cases stage with
    | terminal =>
      rw [selects_terminal_iff] at hq' ⊢
      rw [hq'] at hpre
      exact List.prefix_nil.mp hpre
    | literal p =>
      obtain ⟨r', hr', rfl⟩ := selects_literal_iff.mp hq'
      obtain ⟨x, hx, rfl⟩ := selects_literal_iff.mp hr
      -- both pass through the keys of the literal first
      have hlen : p.segments.length ≤ (u ++ (p.segments ++ x)).length := by
        simp only [List.length_append]
        omega
      obtain ⟨y, hy⟩ := List.prefix_of_prefix_length_le (List.prefix_append _ r') hpre hlen
      have hsuffix : x <:+ y := by
        have hx' : x <:+ u ++ (p.segments ++ x) := ⟨u ++ p.segments, by rw [List.append_assoc]⟩
        refine List.suffix_of_suffix_length_le hx' ⟨p.segments, hy⟩ ?_
        have := congrArg List.length hy
        simp only [List.length_append] at this
        omega
      obtain ⟨v, rfl⟩ := hsuffix
      rw [← hy, List.prefix_append_right_inj] at hpre
      exact selects_literal_iff.mpr
        ⟨v ++ x, ih hr' hpre (selects_descent_iff.mpr ⟨v, x, hx, rfl⟩), hy.symm⟩
    | wildcard =>
      obtain ⟨s', r', hr', rfl⟩ := selects_wildcard_iff.mp hq'
      obtain ⟨s, x, hx, rfl⟩ := selects_wildcard_iff.mp hr
      cases u with
      | nil =>
        have hx' : Selects (.descent :: rest) x := selects_descent_iff.mpr ⟨[], x, hx, rfl⟩
        exact selects_wildcard_iff.mpr ⟨s, x, ih hr' (List.cons_prefix_cons.mp hpre).2 hx', rfl⟩
      | cons s'' u =>
        have hx' : Selects (.descent :: rest) (u ++ s :: x) :=
          selects_descent_iff.mpr ⟨u ++ [s], x, hx, by simp⟩
        exact selects_wildcard_iff.mpr
          ⟨s'', u ++ s :: x, ih hr' (List.cons_prefix_cons.mp hpre).2 hx', rfl⟩
    | descent =>
      obtain ⟨v, x, hx, rfl⟩ := selects_descent_iff.mp hr
      exact selects_descent_iff.mpr ⟨u ++ v, x, hx, (List.append_assoc u v x).symm⟩

/-! ### Stages that end plainly -/

/-- The last stage before the terminal is a wildcard, or a literal whose last key names no index. -/
inductive EndsPlainly : List Stage → Prop
  | wildcard : EndsPlainly [.wildcard, .terminal]
  | literal {p : Pointer} {k : Segment} (hk : p.tail? = some k) (hplain : k.isIndex = false) :
    EndsPlainly [.literal p, .terminal]
  | cons {stage : Stage} {rest : List Stage} (h : stage ≠ .terminal) :
    EndsPlainly rest → EndsPlainly (stage :: rest)

/-- Stages that end in a key or a wildcard do not consist of the terminal stage. -/
lemma EndsPlainly.ne_terminal {stages : List Stage} (h : EndsPlainly stages) :
    stages ≠ [.terminal] := by
  rintro rfl
  cases h with
  | cons h _ => exact h rfl

/-- Such stages do not select the root. -/
lemma EndsPlainly.ne_nil {stages : List Stage} (h : EndsPlainly stages) {q : List Segment}
    (hq : Selects stages q) : q ≠ [] := by
  rintro rfl
  induction h with
  | wildcard =>
    obtain ⟨s, r, -, hr⟩ := selects_wildcard_iff.mp hq
    exact absurd hr (by simp)
  | @literal p k hk hplain =>
    obtain ⟨r, -, hr⟩ := selects_literal_iff.mp hq
    rw [Pointer.tail?, (List.append_eq_nil_iff.mp hr.symm).1] at hk
    exact absurd hk (by simp)
  | cons h _ ih =>
    obtain ⟨w, r, -, hr, hwr⟩ := (selects_cons_iff h).mp hq
    exact ih ((List.append_eq_nil_iff.mp hwr.symm).2 ▸ hr)

/-- If such stages select one element of an array, then they select each of its elements. -/
theorem EndsPlainly.selects_element {stages : List Stage} (h : EndsPlainly stages)
    {w : List Segment} {s : Segment} (hs : s.isIndex = true) (hq : Selects stages (w ++ [s]))
    (s' : Segment) : Selects stages (w ++ [s']) := by
  induction h generalizing w with
  | wildcard =>
    obtain ⟨x, r, hr, hw⟩ := selects_wildcard_iff.mp hq
    rw [selects_terminal_iff.mp hr] at hw
    rw [(List.append_eq_singleton_iff.mp hw).elim (fun h => h.1) fun h => absurd h.2 (by simp)]
    exact selects_wildcard_iff.mpr ⟨s', [], selects_terminal_iff.mpr rfl, rfl⟩
  | @literal p k hk hplain =>
    obtain ⟨r, hr, hw⟩ := selects_literal_iff.mp hq
    rw [selects_terminal_iff.mp hr, List.append_nil] at hw
    rw [Pointer.tail?, ← hw, List.getLast?_concat] at hk
    rw [Option.some.inj hk, hplain] at hs
    exact absurd hs (by simp)
  | cons hstage hrest ih =>
    obtain ⟨v, r, hv, hr, hw⟩ := (selects_cons_iff hstage).mp hq
    obtain ⟨r', x, rfl⟩ := (List.eq_nil_or_concat' r).resolve_left (hrest.ne_nil hr)
    rw [← List.append_assoc] at hw
    obtain ⟨rfl, hx⟩ := List.append_inj' hw rfl
    obtain rfl : s = x := by simpa using hx
    rw [List.append_assoc]
    exact (selects_cons_iff hstage).mpr ⟨v, r' ++ [s'], hv, ih hr, rfl⟩

/-! ### What lies clear of the matches -/

open Classical in
/-- Whether a location is neither selected nor below one that is. -/
noncomputable def clear (stages : List Stage) (q : List Segment) : Bool :=
  decide (∀ w, w <+: q → ¬ Selects stages w)

/-- A location is clear if no prefix of it is selected. -/
lemma clear_eq_true_iff {stages : List Stage} {q : List Segment} :
    clear stages q = true ↔ ∀ w, w <+: q → ¬ Selects stages w := by
  simp [clear]

/-- A location is not clear if a prefix of it is selected. -/
lemma clear_eq_false_iff {stages : List Stage} {q : List Segment} :
    clear stages q = false ↔ ∃ w, w <+: q ∧ Selects stages w := by
  rw [← Bool.not_eq_true, clear_eq_true_iff]
  push Not
  rfl

/-- The root is clear of stages that end in a key or a wildcard. -/
lemma EndsPlainly.clear_nil {stages : List Stage} (h : EndsPlainly stages) :
    clear stages [] = true :=
  clear_eq_true_iff.mpr fun _ hw hsel => h.ne_nil hsel (List.prefix_nil.mp hw)

/-- Dropping the matches of such stages is uniform. -/
theorem EndsPlainly.uniform_clear {stages : List Stage} (h : EndsPlainly stages) :
    Tree.Uniform (clear stages) where
  above w q hq := clear_eq_true_iff.mpr fun v hv =>
    clear_eq_true_iff.mp hq v (hv.trans (List.prefix_append w q))
  elements w s s' hs hs' := by
    have hle : ∀ {s s' : Segment}, s'.isIndex = true → clear stages (w ++ [s]) = true →
        clear stages (w ++ [s']) = true := by
      intro s s' hs' hclear
      rw [clear_eq_true_iff] at hclear ⊢
      intro v hv hsel
      rcases List.prefix_concat_iff.mp hv with rfl | hv
      · exact hclear _ List.prefix_rfl (h.selects_element hs' hsel s)
      · exact hclear v (hv.trans (List.prefix_append w [s])) hsel
    exact Bool.eq_iff_iff.mpr ⟨hle hs', hle hs⟩

/-- Behind its pointer a literal stage leaves clear what the stages after it do. -/
lemma clear_literal_append (p : Pointer) (rest : List Stage) (q : List Segment) :
    clear (.literal p :: rest) (p.segments ++ q) = clear rest q := by
  rw [Bool.eq_iff_iff, clear_eq_true_iff, clear_eq_true_iff]
  constructor
  · intro h w hw hsel
    exact h (p.segments ++ w) ((List.prefix_append_right_inj _).mpr hw)
      (selects_literal_iff.mpr ⟨w, hsel, rfl⟩)
  · intro h w hw hsel
    obtain ⟨r, hr, rfl⟩ := selects_literal_iff.mp hsel
    exact h r ((List.prefix_append_right_inj _).mp hw) hr

/-- Off its pointer everything is clear of a literal stage. -/
lemma clear_literal_of_not_isPrefix {p : Pointer} {q : List Segment} (h : ¬ p.segments <+: q)
    (rest : List Stage) : clear (.literal p :: rest) q = true := by
  rw [clear_eq_true_iff]
  intro w hw hsel
  obtain ⟨r, -, rfl⟩ := selects_literal_iff.mp hsel
  exact h ((List.prefix_append _ r).trans hw)

/-- Behind one segment a wildcard leaves clear what the stages after it do. -/
lemma clear_wildcard_cons (rest : List Stage) (s : Segment) (q : List Segment) :
    clear (.wildcard :: rest) (s :: q) = clear rest q := by
  rw [Bool.eq_iff_iff, clear_eq_true_iff, clear_eq_true_iff]
  constructor
  · intro h w hw hsel
    exact h (s :: w) (List.cons_prefix_cons.mpr ⟨rfl, hw⟩) (selects_wildcard_iff.mpr ⟨s, w, hsel, rfl⟩)
  · intro h w hw hsel
    obtain ⟨s', r, hr, rfl⟩ := selects_wildcard_iff.mp hsel
    exact h r (List.cons_prefix_cons.mp hw).2 hr

/-- What is clear of a descent is clear of the stages after it, here and at every child. -/
lemma clear_descent (rest : List Stage) (q : List Segment) : clear (.descent :: rest) q
    = (clear rest q && clear (.wildcard :: .descent :: rest) q) := by
  rw [Bool.eq_iff_iff, Bool.and_eq_true, clear_eq_true_iff, clear_eq_true_iff, clear_eq_true_iff]
  simp only [@selects_descent_iff_or rest, not_or]
  exact ⟨fun h => ⟨fun w hw => (h w hw).1, fun w hw => (h w hw).2⟩,
    fun h w hw => ⟨h.1 w hw, h.2 w hw⟩⟩

/-! ### Segments of stages -/

/-- The segments of the path that a list of stages stands for. -/
def steps (stages : List Stage) : List Step := stages.flatMap fun stage =>
  match stage with
  | .literal p => p.segments.map .key
  | .wildcard => [.wildcard]
  | .descent => [.descent]
  | .terminal => []

/-- The stages of a list of steps have these steps. -/
lemma steps_stagesOf (path : List Step) : steps (stagesOf path) = path := by
  induction path with
  | nil => rfl
  | cons step path ih =>
    cases step with
    | wildcard => exact congrArg (Step.wildcard :: ·) ih
    | descent => exact congrArg (Step.descent :: ·) ih
    | key s =>
      have hkey : steps (stagesOf (.key s :: path)) = .key s :: steps (stagesOf path) := by
        rw [stagesOf]
        cases stagesOf path with
        | nil => rfl
        | cons stage rest => cases stage <;> rfl
      rw [hkey, ih]

/-- The steps of stages after others come after those of the others. -/
lemma steps_append (stages stages' : List Stage) :
    steps (stages ++ stages') = steps stages ++ steps stages' := List.flatMap_append

/-- Only a descent among the stages gives a descent among the steps. -/
lemma mem_of_descent_mem_steps {stages : List Stage} (h : .descent ∈ steps stages) :
    .descent ∈ stages := by
  obtain ⟨stage, hmem, hstep⟩ := List.mem_flatMap.mp h
  cases stage with
  | descent => exact hmem
  | literal | wildcard | terminal => simp at hstep

/-- The stages of some steps do not consist of the terminal stage. -/
lemma stagesOf_ne_terminal {path : List Step} (h : path ≠ []) : stagesOf path ≠ [.terminal] := by
  intro heq
  have := steps_stagesOf path
  rw [heq] at this
  exact h this.symm

/-- The stages of a path end in their only terminal, and no literal among them is empty. -/
lemma exists_stagesOf_eq (path : List Step) : ∃ front : List Stage,
    stagesOf path = front ++ [.terminal] ∧ .terminal ∉ front
      ∧ ∀ p, .literal p ∈ front → p.segments ≠ [] := by
  induction path with
  | nil => exact ⟨[], rfl, by simp, by simp⟩
  | cons step path ih =>
    obtain ⟨front, hfront, hterminal, hliteral⟩ := ih
    cases step with
    | wildcard =>
      exact ⟨.wildcard :: front, congrArg (Stage.wildcard :: ·) hfront, by simpa using hterminal,
        by simpa using hliteral⟩
    | descent =>
      exact ⟨.descent :: front, congrArg (Stage.descent :: ·) hfront, by simpa using hterminal,
        by simpa using hliteral⟩
    | key s =>
      rw [stagesOf, hfront]
      cases front with
      | nil => exact ⟨[.literal ⟨[s]⟩], rfl, by simp, by simp⟩
      | cons stage front =>
        rw [List.mem_cons, not_or] at hterminal
        simp only [List.mem_cons] at hliteral
        cases stage with
        | literal p =>
          refine ⟨.literal ⟨s :: p.segments⟩ :: front, rfl, by simpa using hterminal.2, ?_⟩
          intro p' hp'
          rcases List.mem_cons.mp hp' with heq | hmem
          · rw [Stage.literal.inj heq]
            exact List.cons_ne_nil _ _
          · exact hliteral p' (.inr hmem)
        | wildcard =>
          exact ⟨.literal ⟨[s]⟩ :: .wildcard :: front, rfl, by simpa using hterminal.2,
            by simpa using hliteral⟩
        | descent =>
          exact ⟨.literal ⟨[s]⟩ :: .descent :: front, rfl, by simpa using hterminal.2,
            by simpa using hliteral⟩
        | terminal => exact absurd rfl hterminal.1

/-- A key takes the segment that it names. -/
theorem selects_stagesOf_key {s : Segment} {path : List Step} {q : List Segment} :
    Selects (stagesOf (.key s :: path)) q ↔ ∃ r, Selects (stagesOf path) r ∧ q = s :: r := by
  rw [stagesOf]
  split
  · next p rest hstages =>
    rw [hstages]
    simp only [selects_literal_iff, List.cons_append]
    constructor
    · rintro ⟨r, hr, rfl⟩
      exact ⟨_, ⟨r, hr, rfl⟩, rfl⟩
    · rintro ⟨_, ⟨r, hr, rfl⟩, rfl⟩
      exact ⟨r, hr, rfl⟩
  · exact selects_literal_iff

end Stage

/-- Whether a selector matches at a location. -/
def Selector.selects (s : Selector) (q : List Segment) : Bool := decide (Stage.Selects s.stages q)

end DocumentPath
