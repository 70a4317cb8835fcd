import Mathlib
import DocumentPath.Proofs.Construction

/-!
# The questions of a build

A build asks its lookup for the values of its puts in the order in which they are declared, each once, and
stops asking when it fails.  The values of a spec and those of a list of specs are placed in the same way, one
after another with the questions put together (`Built.each`), so that one induction says for both where a
failing run stops and what has been asked by then (`Built.each_cases`).  A spec stops at its target, which
cannot be opened, or at an entry whose value cannot be coerced or placed (`CompiledBuildSpec.StopsAt`).

The questions are all that a build learns from its lookup: another lookup that gives the same answers to them
makes the same build (`Builder.build_congr`).  The main statement is `Builder.build_asks_in_order`.
-/

namespace DocumentPath

/-- Changes that change nothing may be left out of a run. -/
lemma Outcome.sequence_filter {ε α : Type} {f : α → Tree → Outcome ε} {keep : α → Bool}
    (h : ∀ a, keep a = false → ∀ t, f a t = .ok t) (as : List α) (t : Tree) :
    sequence t ((as.filter keep).map f) = sequence t (as.map f) := by
  induction as generalizing t with
  | nil => rfl
  | cons a rest ih =>
    cases hkeep : keep a with
    | true =>
      rw [List.filter_cons_of_pos hkeep, List.map_cons, List.map_cons, sequence_cons, sequence_cons]
      exact congrArg _ (funext ih)
    | false =>
      rw [List.filter_cons_of_neg (by simp [hkeep]), List.map_cons, sequence_cons, h a hkeep t, ih]
      rfl

/-! ### One thing after another -/

namespace Built

variable {α : Type} {f f' : α → Tree → Run Built} {g : α → Tree → Outcome PathError}

/-- A run succeeds and has asked what each of its parts asks, or it stops at a part that fails, after the
parts before it have succeeded. -/
theorem each_cases (hg : ∀ a t σ, ((f a t).run σ).1.outcome = g a t) {q : α → List Question}
    (hq : ∀ a t σ, (g a t).error = none → ((f a t).run σ).1.asked = q a) (as : List α) (t : Tree)
    (σ : Session) :
    (((each f as t).run σ).1.outcome.error = none ∧
      ((each f as t).run σ).1.asked = as.flatMap q) ∨
    ∃ before a after t' σ' err, as = before ++ a :: after ∧
      (∀ σ, ((each f before t).run σ).1.outcome = .ok t') ∧
      ((f a t').run σ').1.outcome.error = some err ∧
      ((each f as t).run σ).1.outcome.error = some err ∧
      ((each f as t).run σ).1.asked = before.flatMap q ++ ((f a t').run σ').1.asked := by
  induction as generalizing t σ with
  | nil => exact .inl ⟨rfl, rfl⟩
  | cons a rest ih =>
    cases h : ((f a t).run σ).1.outcome.error with
    | some err =>
      have hrun := run_each_of_error h rest
      exact .inr ⟨[], a, rest, t, σ, err, rfl, fun _ => rfl, h, by rw [hrun, h], by rw [hrun]; rfl⟩
    | none =>
      have hok : (g a t).error = none := by rw [← hg a t σ, h]
      have hdone : g a t = .ok (g a t).tree := by rw [Outcome.ok, ← hok]
      rw [run_each_of_ok h, hq a t σ hok, hg]
      refine (ih (g a t).tree ((f a t).run σ).2).imp ?_ ?_
      · rintro ⟨hnone, hasked⟩
        exact ⟨hnone, by rw [hasked, List.flatMap_cons]⟩
      · rintro ⟨before, a', after, t', σ', err, rfl, hbefore, hfails, herr, hasked⟩
        refine ⟨a :: before, a', after, t', σ', err, rfl, fun σ => ?_, hfails, herr, ?_⟩
        · have hrest := hbefore σ
          rw [outcome_each hg] at hrest ⊢
          rw [List.map_cons, Outcome.sequence_cons, hdone]
          exact hrest
        · rw [hasked, List.flatMap_cons, List.append_assoc]

/-- Parts that do the same as long as the answers to their questions are the same make runs that do so. -/
lemma each_congr {lookup lookup' : Lookup}
    (h : ∀ a t σ, (∀ q ∈ ((f a t).run σ).1.asked, lookup' q = lookup q) →
      (f' a t).run σ = (f a t).run σ) {as : List α} {t : Tree} {σ : Session}
    (hasked : ∀ q ∈ ((each f as t).run σ).1.asked, lookup' q = lookup q) :
    (each f' as t).run σ = (each f as t).run σ := by
  induction as generalizing t σ with
  | nil => rfl
  | cons a rest ih =>
    cases herr : ((f a t).run σ).1.outcome.error with
    | some err =>
      rw [run_each_of_error herr] at hasked ⊢
      have hsame := h a t σ hasked
      have herr' : ((f' a t).run σ).1.outcome.error = some err := hsame ▸ herr
      rw [run_each_of_error herr', hsame]
    | none =>
      rw [run_each_of_ok herr] at hasked ⊢
      simp only [List.forall_mem_append] at hasked
      have hsame := h a t σ hasked.1
      have herr' : ((f' a t).run σ).1.outcome.error = none := hsame ▸ herr
      rw [run_each_of_ok herr', hsame, ih hasked.2]

end Built

/-! ### The values of a spec -/

/-- The questions of the puts of a spec: of each its key, with its own representation or else that of the
spec. -/
def BuildSpec.questions (s : BuildSpec) : List Question :=
  s.puts.map fun e => ⟨e.key, e.representation.getD s.defaultRepresentation⟩

namespace PutPlan

/-- The lookup gives a value for the entry. -/
def isAnswered (lookup : Lookup) (e : PutPlan) : Bool := (lookup e.question).any (· != .null)

/-- The value for an entry cannot be coerced, or cannot be placed. -/
def Fails (lookup : Lookup) (e : PutPlan) (t : Tree) (err : PathError) : Prop :=
  ∃ value, lookup e.question = some value ∧ value ≠ .null ∧
    (value.coerce e.question.representation = .error err ∨
      ∃ x, value.coerce e.question.representation = .ok x ∧
        (match e.mode with
          | .put => e.into.set x t
          | .add => e.into.add x t).error = some err)

variable {lookup : Lookup} {e : PutPlan}

/-- An entry without an answer changes nothing. -/
lemma change_of_not_isAnswered (h : e.isAnswered lookup = false) (t : Tree) :
    e.change lookup t = .ok t := by
  have hnone : (lookup e.question).filter (· != .null) = none := by
    rw [isAnswered] at h
    cases hl : lookup e.question with
    | none => rfl
    | some value => simpa [hl] using h
  rw [change, hnone, Option.elim_none]

/-- Where an entry fails, its value cannot be coerced or cannot be placed. -/
lemma fails_of_change {t : Tree} {err : PathError} (h : (e.change lookup t).error = some err) :
    e.Fails lookup t err := by
  unfold change at h
  cases hl : (lookup e.question).filter (· != .null) with
  | none =>
    rw [hl] at h
    exact absurd h (by simp [Outcome.ok])
  | some value =>
    obtain ⟨hvalue, hne⟩ := Option.filter_eq_some_iff.mp hl
    rw [hl, Option.elim_some, CompiledBuildSpec.placeValue] at h
    refine ⟨value, hvalue, by simpa using hne, ?_⟩
    cases hx : value.coerce e.question.representation with
    | error err' =>
      rw [hx] at h
      exact .inl (congrArg _ (Option.some.inj h))
    | ok x =>
      rw [hx] at h
      refine .inr ⟨x, rfl, ?_⟩
      cases hmode : e.mode <;> rw [hmode] at h <;> exact h

end PutPlan

namespace CompiledBuildSpec

variable {lookup lookup' : Lookup}

/-- The questions of the puts of a compiled spec. -/
def questions (s : CompiledBuildSpec) : List Question := s.puts.map PutPlan.question

/-- Compiling a spec leaves its questions as they are. -/
lemma questions_eq {s : BuildSpec} {c : CompiledBuildSpec} (h : s.CompiledAs c) :
    c.questions = s.questions := by
  have hsame : List.Forall₂ (· = ·) s.questions c.questions :=
    List.forall₂_map_left_iff.mpr (List.forall₂_map_right_iff.mpr
      (h.puts.imp fun _ _ hplan => hplan.2.2.symm))
  rw [List.forall₂_eq_eq_eq] at hsame
  exact hsame.symm

/-- Placing the looked-up values of a spec in a tree fails after some questions: its target cannot be opened,
or the value for an entry cannot be coerced or placed after those before it have been placed. -/
inductive StopsAt (lookup : Lookup) (s : CompiledBuildSpec) (t : Tree) (err : PathError) :
    List Question → Prop
  | target : (s.target.openContainer t).error = some err → StopsAt lookup s t err []
  | entry {node node' : Tree} {before after : List PutPlan} {e : PutPlan} :
    (s.target.openContainer t).error = none →
    s.target.at? (s.target.openContainer t).tree = some node →
    s.puts = before ++ e :: after →
    (∀ σ, ((placePuts lookup before node).run σ).1.outcome = .ok node') →
    e.Fails lookup node' err →
    StopsAt lookup s t err (before.map PutPlan.question ++ [e.question])

/-- A spec that stops has asked the first of its questions. -/
lemma StopsAt.isPrefix {s : CompiledBuildSpec} {t : Tree} {err : PathError} {asked : List Question}
    (h : s.StopsAt lookup t err asked) : asked <+: s.questions := by
  cases h with
  | target => exact List.nil_prefix
  | @entry _ _ before after e _ _ hputs =>
    rw [questions, hputs, List.map_append, List.map_cons]
    exact ⟨after.map PutPlan.question, by rw [List.append_assoc, List.singleton_append]⟩

/-- All values of a list of entries are placed, or one cannot be. -/
lemma placePuts_cases (puts : List PutPlan) (t : Tree) (σ : Session) :
    (((placePuts lookup puts t).run σ).1.outcome.error = none ∧
      ((placePuts lookup puts t).run σ).1.asked = puts.map PutPlan.question) ∨
    ∃ before e after t' err, puts = before ++ e :: after ∧
      (∀ σ, ((placePuts lookup before t).run σ).1.outcome = .ok t') ∧ e.Fails lookup t' err ∧
      ((placePuts lookup puts t).run σ).1.outcome.error = some err ∧
      ((placePuts lookup puts t).run σ).1.asked = before.map PutPlan.question ++ [e.question] := by
  have hcases := Built.each_cases (f := placePut lookup) (g := PutPlan.change lookup)
    (q := fun e => [e.question]) (fun e t σ => congrArg Built.outcome (run_placePut e t σ))
    (fun e t σ _ => congrArg Built.asked (run_placePut e t σ)) puts t σ
  simp only [← List.map_eq_flatMap] at hcases
  refine hcases.imp_right ?_
  rintro ⟨before, e, after, t', σ', err, hputs, hbefore, hfails, herr, hasked⟩
  rw [run_placePut] at hfails hasked
  exact ⟨before, e, after, t', err, hputs, hbefore, PutPlan.fails_of_change hfails, herr, hasked⟩

/-- The same answers place the values of entries in the same way. -/
lemma placePuts_congr {puts : List PutPlan} {t : Tree} {σ : Session}
    (h : ∀ q ∈ ((placePuts lookup puts t).run σ).1.asked, lookup' q = lookup q) :
    (placePuts lookup' puts t).run σ = (placePuts lookup puts t).run σ := by
  refine Built.each_congr (fun e t σ hasked => ?_) h
  rw [run_placePut] at hasked
  have hanswer : lookup' e.question = lookup e.question := hasked _ (List.mem_singleton_self _)
  unfold placePut Lookup.ask
  rw [hanswer]

/-- All looked-up values of a spec are placed, or the spec stops. -/
lemma placeNodes_cases (s : CompiledBuildSpec) (t : Tree) (σ : Session) :
    (((s.placeNodes lookup t).run σ).1.outcome.error = none ∧
      ((s.placeNodes lookup t).run σ).1.asked = s.questions) ∨
    ∃ err, ((s.placeNodes lookup t).run σ).1.outcome.error = some err ∧
      s.StopsAt lookup t err ((s.placeNodes lookup t).run σ).1.asked := by
  cases hopened : (s.target.openContainer t).error with
  | some err =>
    have hrun : ((s.placeNodes lookup t).run σ).1 = ⟨s.target.openContainer t, []⟩ := by
      unfold placeNodes
      simp only [hopened]
      rfl
    rw [hrun]
    exact .inr ⟨err, hopened, .target hopened⟩
  | none =>
    obtain ⟨node, hnode⟩ := Pointer.exists_openContainer hopened
    have hrun : ((s.placeNodes lookup t).run σ).1
        = ⟨((placePuts lookup s.puts node).run σ).1.outcome.within (s.target.openContainer t).tree
            s.target.segments, ((placePuts lookup s.puts node).run σ).1.asked⟩ := by
      unfold placeNodes
      simp only [hopened, hnode]
      rfl
    rw [hrun]
    rcases placePuts_cases s.puts node σ with
      hall | ⟨before, e, after, node', err, hputs, hbefore, hfails, herr, hasked⟩
    · exact .inl hall
    · simp only [hasked]
      exact .inr ⟨err, herr, .entry hopened hnode hputs hbefore hfails⟩

/-- The same answers place the values of a spec in the same way. -/
lemma placeNodes_congr {s : CompiledBuildSpec} {t : Tree} {σ : Session}
    (h : ∀ q ∈ ((s.placeNodes lookup t).run σ).1.asked, lookup' q = lookup q) :
    (s.placeNodes lookup' t).run σ = (s.placeNodes lookup t).run σ := by
  unfold placeNodes at h ⊢
  simp only at h ⊢
  split at h
  · rw [Run.run_bind_fst] at h
    rw [Run.run_bind, Run.run_bind, placePuts_congr h]
  · rfl

end CompiledBuildSpec

/-! ### The values of a list of specs -/

namespace Builder

variable {lookup lookup' : Lookup}

/-- Placing the looked-up values of specs in a tree fails after some questions: those of specs that can be
placed, and those of a spec that stops. -/
def StopsAt (lookup : Lookup) (b : Builder) (t : Tree) (err : PathError) (asked : List Question) :
    Prop :=
  ∃ before s after t' questions, b.specs = before ++ s :: after ∧
    (∀ σ, ((placeEach lookup before t).run σ).1.outcome = .ok t') ∧
    s.StopsAt lookup t' err questions ∧
    asked = before.flatMap CompiledBuildSpec.questions ++ questions

/-- The builder without the entries for which the lookup gives nothing or null. -/
def answered (lookup : Lookup) (b : Builder) : Builder :=
  ⟨b.specs.map fun s => { s with puts := s.puts.filter (PutPlan.isAnswered lookup) }⟩

/-- A builder that stops has asked the first of the questions of its specs. -/
lemma StopsAt.isPrefix {b : Builder} {t : Tree} {err : PathError} {asked : List Question}
    (h : b.StopsAt lookup t err asked) : asked <+: b.specs.flatMap CompiledBuildSpec.questions := by
  obtain ⟨before, s, after, t', questions, hspecs, -, hstops, rfl⟩ := h
  rw [hspecs, List.flatMap_append, List.flatMap_cons]
  exact List.prefix_append_right_inj _ |>.mpr (hstops.isPrefix.trans (List.prefix_append _ _))

/-- The same answers place the values of a list of specs in the same way. -/
lemma placeEach_congr {specs : List CompiledBuildSpec} {t : Tree} {σ : Session}
    (h : ∀ q ∈ ((placeEach lookup specs t).run σ).1.asked, lookup' q = lookup q) :
    (placeEach lookup' specs t).run σ = (placeEach lookup specs t).run σ :=
  Built.each_congr (fun _ _ _ hasked => CompiledBuildSpec.placeNodes_congr hasked) h

/-- All looked-up values are placed, or a spec stops. -/
theorem buildNodes_cases (b : Builder) (t : Tree) (σ : Session) :
    (((b.buildNodes lookup t).run σ).1.outcome.error = none ∧
      ((b.buildNodes lookup t).run σ).1.asked = b.specs.flatMap CompiledBuildSpec.questions) ∨
    ∃ err, ((b.buildNodes lookup t).run σ).1.outcome.error = some err ∧
      b.StopsAt lookup t err ((b.buildNodes lookup t).run σ).1.asked := by
  have hasked : ∀ (s : CompiledBuildSpec) t σ, (s.changeNodes lookup t).error = none →
      ((s.placeNodes lookup t).run σ).1.asked = s.questions := by
    intro s t σ hok
    rw [← CompiledBuildSpec.outcome_placeNodes s t σ] at hok
    rcases s.placeNodes_cases t σ with ⟨-, hasked⟩ | ⟨err, herr, -⟩
    · exact hasked
    · exact absurd (hok.symm.trans herr) (by simp)
  have hcases := Built.each_cases (f := CompiledBuildSpec.placeNodes lookup)
    CompiledBuildSpec.outcome_placeNodes hasked b.specs t σ
  refine hcases.imp_right ?_
  rintro ⟨before, s, after, t', σ', err, hspecs, hbefore, hfails, herr, hasked⟩
  rcases s.placeNodes_cases t' σ' with ⟨hnone, -⟩ | ⟨err', herr', hstops⟩
  · exact absurd (hnone.symm.trans hfails) (by simp)
  · obtain rfl : err = err' := Option.some.inj (hfails.symm.trans herr')
    exact ⟨err, herr, before, s, after, t', _, hspecs, hbefore, hstops, hasked⟩

/-- A build whose literals fail asks nothing. -/
lemma run_buildAll_of_error {b : Builder} {t : Tree} {err : PathError}
    (h : (b.buildLiterals t).error = some err) (σ : Session) :
    ((b.buildAll lookup t).run σ).1 = ⟨b.buildLiterals t, []⟩ := by
  simp only [buildAll, h]
  rfl

/-- A build whose literals are placed goes on to the looked-up values. -/
lemma run_buildAll_of_ok {b : Builder} {t : Tree} (h : (b.buildLiterals t).error = none) :
    b.buildAll lookup t = b.buildNodes lookup (b.buildLiterals t).tree := by
  simp only [buildAll, h]

/-- A lookup that gives the same answers to the questions that are asked makes the same build. -/
theorem build_congr {b : Builder} {t : Tree} {σ : Session}
    (h : ∀ q ∈ ((b.build lookup t).run σ).1.asked, lookup' q = lookup q) :
    ((b.build lookup' t).run σ).1 = ((b.build lookup t).run σ).1 := by
  rw [build, Run.run_asOperation_fst] at h
  rw [build, build, Run.run_asOperation_fst, Run.run_asOperation_fst]
  cases herr : (b.buildLiterals t).error with
  | some err => rw [run_buildAll_of_error herr, run_buildAll_of_error herr]
  | none =>
    rw [run_buildAll_of_ok herr, buildNodes] at h
    rw [run_buildAll_of_ok herr, run_buildAll_of_ok herr, buildNodes, buildNodes, placeEach_congr h]

/-- Entries for which the lookup gives nothing or null make no difference. -/
theorem outcome_build_answered (b : Builder) (t : Tree) (σ : Session) :
    (((b.answered lookup).build lookup t).run σ).1.outcome
      = ((b.build lookup t).run σ).1.outcome := by
  have hliterals : (b.answered lookup).buildLiterals t = b.buildLiterals t := by
    rw [buildLiterals, answered, List.map_map]
    rfl
  have hnodes : (b.answered lookup).specs.map (CompiledBuildSpec.changeNodes lookup)
      = b.specs.map (CompiledBuildSpec.changeNodes lookup) := by
    rw [answered, List.map_map]
    refine List.map_congr_left fun s _ => funext fun t => ?_
    refine congrArg (s.atTarget t) (funext fun node => ?_)
    exact Outcome.sequence_filter (fun _ => PutPlan.change_of_not_isAnswered) s.puts node
  rw [outcome_build, outcome_build, hliterals, hnodes]

/-- The questions of a builder are those of its specs. -/
lemma questions_of_ofSpecs {specs : List BuildSpec} {b : Builder}
    (h : List.Forall₂ BuildSpec.CompiledAs specs b.specs) :
    b.specs.flatMap CompiledBuildSpec.questions = specs.flatMap BuildSpec.questions := by
  generalize b.specs = compiled at h
  induction h with
  | nil => rfl
  | cons hs _ ih => rw [List.flatMap_cons, List.flatMap_cons, ih, CompiledBuildSpec.questions_eq hs]

/-- What a build has asked when its literals have been placed: everything, or what comes before it stops. -/
lemma build_cases {b : Builder} {t : Tree} (h : (b.buildLiterals t).error = none) (σ : Session) :
    (((b.build lookup t).run σ).1.outcome.error = none ∧
      ((b.build lookup t).run σ).1.asked = b.specs.flatMap CompiledBuildSpec.questions) ∨
    ∃ err, ((b.build lookup t).run σ).1.outcome.error = some err ∧
      b.StopsAt lookup (b.buildLiterals t).tree err ((b.build lookup t).run σ).1.asked := by
  rw [build, Run.run_asOperation_fst, run_buildAll_of_ok h]
  exact b.buildNodes_cases (b.buildLiterals t).tree _

/-- **A build asks its questions in order.**  The questions of a build are the first of all those of its
specs, in the order in which they are declared, each asked for the key and the representation of its entry;
a build that succeeds has asked them all.  If a literal cannot be placed then nothing is asked; otherwise a
build that fails has last asked for the entry whose value cannot be coerced or placed, or, where a target
cannot be opened, for the last entry of the specs before.  Entries without a value change nothing, and the
answers to the questions are all that the build depends on. -/
theorem build_asks_in_order {specs : List BuildSpec} {b : Builder} (hb : ofSpecs specs = .ok b)
    (lookup : Lookup) (t : Tree) (σ : Session) : ∃ built, ((b.build lookup t).run σ).1 = built ∧
      List.Forall₂ BuildSpec.CompiledAs specs b.specs ∧
      built.asked <+: specs.flatMap BuildSpec.questions ∧
      (built.outcome.error = none → built.asked = specs.flatMap BuildSpec.questions) ∧
      (∀ err, (b.buildLiterals t).error = some err →
        built.outcome = b.buildLiterals t ∧ built.asked = []) ∧
      (∀ err, (b.buildLiterals t).error = none → built.outcome.error = some err →
        b.StopsAt lookup (b.buildLiterals t).tree err built.asked) ∧
      (((b.answered lookup).build lookup t).run σ).1.outcome = built.outcome ∧
      ∀ lookup' : Lookup, (∀ q ∈ built.asked, lookup' q = lookup q) →
        ((b.build lookup' t).run σ).1 = built := by
  have hspecs := (verdict_ofSpecs specs).of_ok hb
  have hquestions := questions_of_ofSpecs hspecs
  have hfailed : ∀ err, (b.buildLiterals t).error = some err →
      ((b.build lookup t).run σ).1 = ⟨b.buildLiterals t, []⟩ := by
    intro err herr
    rw [build, Run.run_asOperation_fst, run_buildAll_of_error herr]
  refine ⟨_, rfl, hspecs, ?_, ?_, ?_, ?_, outcome_build_answered b t σ, fun _ => build_congr⟩
  · cases hliterals : (b.buildLiterals t).error with
    | some err => exact hfailed err hliterals ▸ List.nil_prefix
    | none =>
      rw [← hquestions]
      rcases build_cases hliterals σ with ⟨-, hasked⟩ | ⟨err, -, hstops⟩
      · exact hasked ▸ List.prefix_rfl
      · exact hstops.isPrefix
  · intro hok
    cases hliterals : (b.buildLiterals t).error with
    | some err =>
      rw [hfailed err hliterals, hliterals] at hok
      exact absurd hok (by simp)
    | none =>
      rcases build_cases hliterals σ with ⟨-, hasked⟩ | ⟨err, herr, -⟩
      · rw [hasked, hquestions]
      · exact absurd (hok.symm.trans herr) (by simp)
  · intro err herr
    rw [hfailed err herr]
    exact ⟨rfl, rfl⟩
  · intro err hliterals herr
    rcases build_cases hliterals σ with ⟨hok, -⟩ | ⟨err', herr', hstops⟩
    · exact absurd (hok.symm.trans herr) (by simp)
    · rwa [Option.some.inj (herr.symm.trans herr')]

/-- Of two specs the first asks for `a` as a text and for `b`, which is null, as an integer, the default of
the spec; the second is not answered for `c`, and fails on `d`, which is no boolean.  It has asked for `d`
last, and never for `e`, nor for `d` again in its other representation. -/
theorem build_asks_in_order_until_refused :
    ∃ (specs : List BuildSpec) (b : Builder) (lookup : Lookup) (σ : Session) (err : PathError),
      ofSpecs specs = .ok b ∧ specs.length = 2 ∧
      specs.flatMap BuildSpec.questions = [⟨"a", .text⟩, ⟨"b", .integer⟩, ⟨"c", .native⟩,
        ⟨"d", .boolean⟩, ⟨"e", .native⟩, ⟨"d", .native⟩] ∧
      ((b.build lookup (.map [])).run σ).1.outcome
        = ⟨.map [("t", .map [("x", .null), ("l", .array [.text "1"])]), ("u", .map [])], some err⟩ ∧
      ((b.build lookup (.map [])).run σ).1.asked
        = [⟨"a", .text⟩, ⟨"b", .integer⟩, ⟨"c", .native⟩, ⟨"d", .boolean⟩] ∧
      b.StopsAt lookup (b.buildLiterals (.map [])).tree err
        [⟨"a", .text⟩, ⟨"b", .integer⟩, ⟨"c", .native⟩, ⟨"d", .boolean⟩] := by
  have hb : ofSpecs [⟨"/t", .integer, [⟨.null, "/x"⟩],
        [⟨.add, "a", some .text, "/l"⟩, ⟨.put, "b", none, "/n"⟩]⟩,
      ⟨"/u", .native, [], [⟨.put, "c", none, "/c"⟩, ⟨.put, "d", some .boolean, "/d"⟩,
        ⟨.put, "e", none, "/e"⟩, ⟨.add, "d", none, "/d"⟩]⟩]
    = .ok ⟨[⟨⟨[⟨"t"⟩]⟩, [⟨.null, ⟨[⟨"x"⟩]⟩⟩], [⟨⟨"a", .text⟩, .add, ⟨[⟨"l"⟩]⟩⟩,
        ⟨⟨"b", .integer⟩, .put, ⟨[⟨"n"⟩]⟩⟩]⟩, ⟨⟨[⟨"u"⟩]⟩, [], [⟨⟨"c", .native⟩, .put, ⟨[⟨"c"⟩]⟩⟩,
        ⟨⟨"d", .boolean⟩, .put, ⟨[⟨"d"⟩]⟩⟩, ⟨⟨"e", .native⟩, .put, ⟨[⟨"e"⟩]⟩⟩,
        ⟨⟨"d", .native⟩, .add, ⟨[⟨"d"⟩]⟩⟩]⟩]⟩ := rfl
  let lookup : Lookup := fun q =>
    if q.key = "a" then some (.int 1) else if q.key = "b" then some .null
    else if q.key = "d" then some (.text "maybe") else none
  obtain ⟨built, hbuilt, -, -, -, -, hstops, -⟩ :=
    build_asks_in_order hb lookup (.map []) (.ofCapacity 1)
  refine ⟨_, _, lookup, .ofCapacity 1, _, hb, rfl, rfl, rfl, rfl, ?_⟩
  subst hbuilt
  exact hstops _ rfl rfl

end Builder

end DocumentPath
