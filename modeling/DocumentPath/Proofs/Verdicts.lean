import Mathlib
import DocumentPath.Proofs.SteadyRuns

/-!
# Verdicts

What checking comes to is said by `Verdict result fault? R`: the result is the error `fault?` if there is one,
and otherwise satisfies `R`.  Checks in turn have the first fault of any of them (`Verdict.bind`), and so have
the checks of a list of things (`verdict_mapUntilFault`).  `Compiles` says the same of a compilation, from
every session.
-/

namespace DocumentPath

/-! ### Verdicts on results -/

section Verdicts

variable {ε δ α β : Type}

/-- The error of a computation that fails. -/
def errorOf? : Except ε α → Option ε
  | .ok _ => none
  | .error e => some e

/-- A computation without an error has a result. -/
lemma errorOf?_eq_none_iff {result : Except ε α} :
    errorOf? result = none ↔ ∃ a, result = .ok a := by
  cases result <;> simp [errorOf?]

/-- The result is the fault, if there is one, and otherwise satisfies `R`. -/
def Verdict (fault? : Option ε) (R : α → Prop) : Except ε α → Prop
  | .ok a => fault? = none ∧ R a
  | .error e => fault? = some e

variable {fault? fault?' : Option ε} {R : α → Prop} {S : β → Prop} {result : Except ε α}

namespace Verdict

/-- What is checked passes if nothing is wrong with it. -/
lemma exists_ok_iff (h : Verdict fault? R result) : (∃ a, result = .ok a) ↔ fault? = none := by
  cases result with
  | ok a => simp [h.1]
  | error e =>
    have hfault : fault? = some e := h
    simp [hfault]

/-- The error of a check is what is wrong. -/
lemma eq_error_iff (h : Verdict fault? R result) (e : ε) : result = .error e ↔ fault? = some e := by
  cases result with
  | ok a => simp [h.1]
  | error e' =>
    have hfault : fault? = some e' := h
    simp [hfault]

/-- The result of a check that passes satisfies `R`. -/
lemma of_ok (h : Verdict fault? R result) {a : α} (ha : result = .ok a) : R a := by
  subst ha
  exact h.2

/-- A function of the result changes nothing about what is wrong. -/
lemma map (h : Verdict fault? R result) {f : α → β} (hf : ∀ a, R a → S (f a)) :
    Verdict fault? S (result.map f) := by
  cases result with
  | ok a => exact ⟨h.1, hf a h.2⟩
  | error e => exact h

/-- Naming the error of a check names what is wrong. -/
lemma mapError (h : Verdict fault? R result) (f : ε → δ) :
    Verdict (fault?.map f) R (result.mapError f) := by
  cases result with
  | ok a => exact ⟨by rw [h.1, Option.map_none], h.2⟩
  | error e => exact congrArg (Option.map f) h

/-- Two checks in turn have the first fault of either. -/
lemma bind (h : Verdict fault? R result) {f : α → Except ε β}
    (hf : ∀ a, R a → Verdict fault?' S (f a)) : Verdict (fault?.or fault?') S (result >>= f) := by
  cases result with
  | ok a =>
    rw [h.1, Option.none_or]
    exact hf a h.2
  | error e =>
    have hfault : fault? = some e := h
    rw [hfault]
    rfl

end Verdict

/-- A computation is a check of its own error. -/
lemma verdict_self (result : Except ε α) :
    Verdict (errorOf? result) (fun a => result = .ok a) result := by
  cases result with
  | ok a => exact ⟨rfl, rfl⟩
  | error e => rfl

/-- The first fault of a list is that of its head, or else the first one of its tail. -/
lemma findSome?_cons_or (f : α → Option ε) (a : α) (as : List α) :
    (a :: as).findSome? f = (f a).or (as.findSome? f) := by
  rw [List.findSome?_cons]
  cases f a <;> rfl

/-- The first fault of a single thing is its own. -/
lemma findSome?_singleton (f : α → Option ε) (a : α) : [a].findSome? f = f a := by
  rw [findSome?_cons_or, List.findSome?_nil, Option.or_none]

/-- The first fault of a list of specs is the first fault of the first spec that has one. -/
lemma findSome?_map_eq_some_iff {fault : α → Option ε} {named : α → ε → δ} {specs : List α} {e : δ} :
    (specs.findSome? fun s => (fault s).map (named s)) = some e ↔
      ∃ before s after cause, specs = before ++ s :: after ∧ (∀ s' ∈ before, fault s' = none) ∧
        fault s = some cause ∧ e = named s cause := by
  simp only [List.findSome?_eq_some_iff, Option.map_eq_none_iff, Option.map_eq_some_iff]
  constructor
  · rintro ⟨before, s, after, hspecs, ⟨cause, hcause, rfl⟩, hbefore⟩
    exact ⟨before, s, after, cause, hspecs, hbefore, hcause, rfl⟩
  · rintro ⟨before, s, after, cause, hspecs, hbefore, hcause, rfl⟩
    exact ⟨before, s, after, hspecs, ⟨cause, hcause, rfl⟩, hbefore⟩

/-- Checking each of a list of things finds the first fault of any, or else a result for each. -/
theorem verdict_mapUntilFault {f : α → Except ε β} {fault : α → Option ε} {R : α → β → Prop}
    (h : ∀ a, Verdict (fault a) (R a) (f a)) (as : List α) :
    Verdict (as.findSome? fault) (List.Forall₂ R as) (mapUntilFault f as) := by
  induction as with
  | nil => exact ⟨rfl, .nil⟩
  | cons a rest ih =>
    rw [findSome?_cons_or]
    have hstep : mapUntilFault f (a :: rest)
        = f a >>= fun b => (mapUntilFault f rest).map (b :: ·) := by
      rw [mapUntilFault]
      cases f a <;> rfl
    rw [hstep]
    exact (h a).bind fun b hb => ih.map fun bs hbs => .cons hb hbs

/-- Checking each of a list of images checks what they are images of. -/
lemma mapUntilFault_map {γ : Type} (f : β → Except ε γ) (g : α → β) (as : List α) :
    mapUntilFault f (as.map g) = mapUntilFault (fun a => f (g a)) as := by
  induction as with
  | nil => rfl
  | cons a rest ih => rw [List.map_cons, mapUntilFault, mapUntilFault, ih]

end Verdicts

/-! ### Verdicts on compilations -/

/-- From every session the compilation comes to the fault, if there is one, and otherwise to a result that
satisfies `R`. -/
def Compiles {α : Type} (fault? : Option PathError) (R : α → Prop) (m : Compilation α) : Prop :=
  ∀ σ : Session, Verdict fault? R (m.run.run σ).1

namespace Compiles

variable {α β : Type} {fault? fault?' : Option PathError} {R : α → Prop} {S : β → Prop}
  {m : Compilation α}

/-- Nothing is wrong with a result that is there already. -/
lemma pure {a : α} (h : R a) : Compiles none R (Pure.pure a : Compilation α) := fun _ => ⟨rfl, h⟩

/-- Nothing is wrong with a report. -/
lemma report (e : Event) : Compiles none (fun _ => True) (Session.report e : Compilation Unit) :=
  fun _ => ⟨rfl, trivial⟩

/-- Two compilations in turn have the first fault of either. -/
lemma bind (h : Compiles fault? R m) {f : α → Compilation β}
    (hf : ∀ a, R a → Compiles fault?' S (f a)) : Compiles (fault?.or fault?') S (m >>= f) := by
  intro σ
  have hm := h σ
  rw [ExceptT.run_bind, Run.run_bind_fst]
  -- what comes second starts from the session that the first leaves, so `σ` has to be arbitrary
  cases hresult : (m.run.run σ).1 with
  | error e =>
    rw [hresult] at hm
    have hfault : fault? = some e := hm
    rw [hfault]
    rfl
  | ok a =>
    rw [hresult] at hm
    rw [hm.1, Option.none_or]
    exact hf a hm.2 _

/-- A compilation that can only go on without a fault. -/
lemma andReturn (h : Compiles fault? R m) {f : α → β} (hf : ∀ a, R a → S (f a)) :
    Compiles fault? S (m >>= fun a => Pure.pure (f a)) := by
  rw [← Option.or_none (o := fault?)]
  exact h.bind fun a ha => .pure (hf a ha)

/-- A function of the result changes nothing about what is wrong. -/
lemma map (h : Compiles fault? R m) {f : α → β} (hf : ∀ a, R a → S (f a)) :
    Compiles fault? S (f <$> m) := by
  rw [map_eq_pure_bind]
  exact h.andReturn hf

/-- Naming the error of a compilation names what is wrong. -/
lemma adapt (h : Compiles fault? R m) (f : PathError → PathError) :
    Compiles (fault?.map f) R (ExceptT.adapt f m) := fun σ => (h σ).mapError f

/-- A result or an error that is there already is a compilation of its own error. -/
lemma lift (result : Except PathError α) :
    Compiles (errorOf? result) (fun a => result = .ok a) (liftExcept result) := by
  cases result with
  | ok a => exact fun _ => ⟨rfl, rfl⟩
  | error e => exact fun _ => rfl

/-- Compiling one more thing before a list of things. -/
lemma cons {ms : Compilation (List α)} {T : β → α → Prop} {b : β} {bs : List β}
    (h : Compiles fault? (T b) m) (hms : Compiles fault?' (List.Forall₂ T bs) ms) :
    Compiles (fault?.or fault?') (List.Forall₂ T (b :: bs)) (do let a ← m; return a :: (← ms)) :=
  h.bind fun _ ha => hms.andReturn fun _ hrest => .cons ha hrest

end Compiles

end DocumentPath
