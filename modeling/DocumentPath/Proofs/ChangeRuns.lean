import Mathlib
import DocumentPath.Builder.Run

/-!
# Runs of changes

Changes of one tree are made one after another by `Outcome.sequence` and, where the cache and the log are
at hand, by `Run.each`; both stop at the first that fails.  Here they are taken apart one change at a time,
and a relation between the tree before and the tree after that every change keeps is carried along a whole
run (`Outcome.relates_sequence`, `Run.relates_each`), which holds of a run that fails as well.
-/

namespace DocumentPath

namespace Outcome

variable {ε : Type}

lemma foldl_andThen_of_error {o : Outcome ε} {e : ε} (h : o.error = some e)
    (fs : List (Tree → Outcome ε)) : fs.foldl andThen o = o := by
  induction fs with
  | nil => rfl
  | cons f rest ih =>
    have hstop : o.andThen f = o := by
      rw [andThen, h]
    rw [List.foldl_cons, hstop, ih]

/-- A run makes the first change and, unless it fails, goes on with the others. -/
theorem sequence_cons (t : Tree) (f : Tree → Outcome ε) (fs : List (Tree → Outcome ε)) :
    sequence t (f :: fs) = (f t).andThen fun t' => sequence t' fs := by
  change fs.foldl andThen ((ok t).andThen f) = _
  have hfirst : (ok t : Outcome ε).andThen f = f t := rfl
  rw [hfirst]
  cases h : (f t).error with
  | none =>
    have hdone : f t = ok (f t).tree := by
      rw [ok, ← h]
    rw [andThen, h, hdone]
    rfl
  | some e =>
    rw [foldl_andThen_of_error h, andThen, h]

/-- Two changes in turn succeed if both do. -/
lemma andThen_of_error_eq_none {o : Outcome ε} {f : Tree → Outcome ε}
    (h : (o.andThen f).error = none) :
    o.error = none ∧ (f o.tree).error = none ∧ (o.andThen f).tree = (f o.tree).tree := by
  rw [andThen] at h ⊢
  cases ho : o.error with
  | none =>
    rw [ho] at h
    exact ⟨rfl, h, rfl⟩
  | some e =>
    rw [ho] at h
    exact absurd (ho.symm.trans h) (by simp)

/-- What two changes in turn keep is kept. -/
lemma relates_andThen {R : Tree → Tree → Prop} (htrans : ∀ {t t' t''}, R t t' → R t' t'' → R t t'')
    {o : Outcome ε} {f : Tree → Outcome ε} {t : Tree} (h : R t o.tree)
    (hf : ∀ t', R t' (f t').tree) : R t (o.andThen f).tree := by
  rw [andThen]
  split
  · exact htrans h (hf o.tree)
  · exact h

/-- What every change of a run keeps is kept by the run. -/
theorem relates_sequence {R : Tree → Tree → Prop} (hrefl : ∀ t, R t t)
    (htrans : ∀ {t t' t''}, R t t' → R t' t'' → R t t'') {fs : List (Tree → Outcome ε)}
    (h : ∀ f ∈ fs, ∀ t, R t (f t).tree) (t : Tree) : R t (sequence t fs).tree := by
  induction fs generalizing t with
  | nil => exact hrefl t
  | cons f rest ih =>
    rw [sequence_cons]
    exact relates_andThen (R := R) htrans (h f List.mem_cons_self t)
      (ih fun g hg => h g (List.mem_cons_of_mem _ hg))

/-- What every change of a run leaves true is true after the run. -/
lemma invariant_sequence {P : Tree → Prop} {fs : List (Tree → Outcome ε)}
    (h : ∀ f ∈ fs, ∀ t, P t → P (f t).tree) {t : Tree} (ht : P t) : P (sequence t fs).tree :=
  relates_sequence (R := fun t t' => P t → P t') (fun _ h => h) (fun h h' => h' ∘ h) h t ht

end Outcome

namespace Run

variable {α β ε : Type}

lemma run_bind (m : Run α) (f : α → Run β) (σ : Session) :
    (m >>= f).run σ = (f (m.run σ).1).run (m.run σ).2 := rfl

lemma run_bind_fst (m : Run α) (f : α → Run β) (σ : Session) :
    ((m >>= f).run σ).1 = ((f (m.run σ).1).run (m.run σ).2).1 := rfl

/-- The report of an operation leaves the result of its body, which runs once the start is reported. -/
lemma run_asOperation_fst (component : Component) (operation : String) (specs : ℕ)
    (error? : α → Option PathError) (body : Run α) (σ : Session) :
    ((asOperation component operation specs error? body).run σ).1
      = (body.run ((Session.report (.started component operation specs)).run σ).2).1 := by
  rw [asOperation, run_bind_fst, run_bind_fst]
  generalize body.run _ = r
  cases error? r.1 <;> rfl

/-- The report of an operation leaves its result. -/
lemma run_asOperation (component : Component) (operation : String) (specs : ℕ)
    (error? : α → Option PathError) (body : Run α) (σ : Session) :
    ∃ σ', ((asOperation component operation specs error? body).run σ).1 = (body.run σ').1 :=
  ⟨_, run_asOperation_fst component operation specs error? body σ⟩

variable {f : α → Tree → Run (Outcome ε)}

/-- A run makes the first change and, unless it fails, goes on with the others. -/
theorem run_each_cons (f : α → Tree → Run (Outcome ε)) (a : α) (rest : List α) (t : Tree)
    (σ : Session) : ((each f (a :: rest) t).run σ).1 = ((f a t).run σ).1.andThen fun t' =>
      ((each f rest t').run ((f a t).run σ).2).1 := by
  rw [each, run_bind_fst, Outcome.andThen]
  cases ((f a t).run σ).1.error <;> rfl

/-- What every change of a run keeps is kept by the run. -/
theorem relates_each {R : Tree → Tree → Prop} (hrefl : ∀ t, R t t)
    (htrans : ∀ {t t' t''}, R t t' → R t' t'' → R t t'') {as : List α}
    (h : ∀ a ∈ as, ∀ t σ, R t ((f a t).run σ).1.tree) (t : Tree) (σ : Session) :
    R t ((each f as t).run σ).1.tree := by
  induction as generalizing t σ with
  | nil => exact hrefl t
  | cons a rest ih =>
    rw [run_each_cons]
    exact Outcome.relates_andThen (R := R) htrans (h a List.mem_cons_self t σ)
      fun t' => ih (fun b hb => h b (List.mem_cons_of_mem _ hb)) t' _

/-- What every change of a run leaves true is true after the run. -/
lemma invariant_each {P : Tree → Prop} {as : List α}
    (h : ∀ a ∈ as, ∀ t σ, P t → P ((f a t).run σ).1.tree) {t : Tree} (ht : P t) (σ : Session) :
    P ((each f as t).run σ).1.tree :=
  relates_each (R := fun t t' => P t → P t') (fun _ h => h) (fun h h' => h' ∘ h) h t σ ht

end Run

/-! ### The runs of a builder -/

namespace Built

variable {α : Type} {f : α → Tree → Run Built} {g : α → Tree → Outcome PathError}

/-- A run stops at a part that fails. -/
lemma run_each_of_error {a : α} {t : Tree} {σ : Session} {err : PathError}
    (h : ((f a t).run σ).1.outcome.error = some err) (rest : List α) :
    (each f (a :: rest) t).run σ = (f a t).run σ := by
  rw [each, Run.run_bind, h]
  rfl

/-- A run goes on after a part that succeeds. -/
lemma run_each_of_ok {a : α} {t : Tree} {σ : Session}
    (h : ((f a t).run σ).1.outcome.error = none) (rest : List α) :
    (each f (a :: rest) t).run σ =
      (⟨((each f rest ((f a t).run σ).1.outcome.tree).run ((f a t).run σ).2).1.outcome,
        ((f a t).run σ).1.asked
          ++ ((each f rest ((f a t).run σ).1.outcome.tree).run ((f a t).run σ).2).1.asked⟩,
      ((each f rest ((f a t).run σ).1.outcome.tree).run ((f a t).run σ).2).2) := by
  rw [each, Run.run_bind, h]
  rfl

/-- If no outcome depends on the session, then the outcome of a run is that of a sequence of changes. -/
lemma outcome_each (hg : ∀ a t σ, ((f a t).run σ).1.outcome = g a t) (as : List α) (t : Tree)
    (σ : Session) : ((each f as t).run σ).1.outcome = .sequence t (as.map g) := by
  induction as generalizing t σ with
  | nil => rfl
  | cons a rest ih =>
    rw [List.map_cons, Outcome.sequence_cons, ← hg a t σ, Outcome.andThen]
    cases h : ((f a t).run σ).1.outcome.error with
    | some err => rw [run_each_of_error h]
    | none => rw [run_each_of_ok h, ih]

end Built

/-- The change that looks up and places the value of an entry. -/
def PutPlan.change (lookup : Lookup) (e : PutPlan) (t : Tree) : Outcome PathError :=
  ((lookup e.question).filter (· != .null)).elim (.ok t) fun value =>
    CompiledBuildSpec.placeValue e value t

namespace CompiledBuildSpec

variable {lookup : Lookup}

/-- Placing the value of an entry asks its question and makes its change. -/
lemma run_placePut (e : PutPlan) (t : Tree) (σ : Session) :
    ((placePut lookup e t).run σ).1 = ⟨e.change lookup t, [e.question]⟩ := by
  unfold placePut Lookup.ask PutPlan.change
  rw [Run.run_bind_fst]
  dsimp only
  cases (lookup e.question).filter (· != .null) <;> rfl

/-- Placing the values of entries makes their changes one after another. -/
lemma outcome_placePuts (puts : List PutPlan) (t : Tree) (σ : Session) :
    ((placePuts lookup puts t).run σ).1.outcome
      = .sequence t (puts.map (PutPlan.change lookup)) :=
  Built.outcome_each (fun e t σ => congrArg Built.outcome (run_placePut e t σ)) puts t σ

/-- The change that places the looked-up values of a spec. -/
def changeNodes (lookup : Lookup) (s : CompiledBuildSpec) (t : Tree) : Outcome PathError :=
  s.atTarget t fun node => .sequence node (s.puts.map (PutPlan.change lookup))

/-- What placing the looked-up values of a spec comes to. -/
lemma outcome_placeNodes (s : CompiledBuildSpec) (t : Tree) (σ : Session) :
    ((s.placeNodes lookup t).run σ).1.outcome = s.changeNodes lookup t := by
  unfold placeNodes changeNodes atTarget
  simp only
  split
  · rw [Run.run_bind_fst]
    exact congrArg (Outcome.within (s.target.openContainer t).tree s.target.segments)
      (outcome_placePuts _ _ σ)
  · rfl

end CompiledBuildSpec

namespace Builder

variable {lookup : Lookup}

/-- Placing the looked-up values of specs makes their changes one after another. -/
lemma outcome_placeEach (specs : List CompiledBuildSpec) (t : Tree) (σ : Session) :
    ((placeEach lookup specs t).run σ).1.outcome
      = .sequence t (specs.map (CompiledBuildSpec.changeNodes lookup)) :=
  Built.outcome_each CompiledBuildSpec.outcome_placeNodes specs t σ

/-- The literals of all specs are placed, and then the looked-up values. -/
lemma run_buildAll (b : Builder) (t : Tree) (σ : Session) :
    ((b.buildAll lookup t).run σ).1.outcome = (b.buildLiterals t).andThen fun t' =>
      ((b.buildNodes lookup t').run σ).1.outcome := by
  rw [buildAll, Outcome.andThen]
  cases (b.buildLiterals t).error <;> rfl

/-- The outcome of a build does not depend on the session: the literals are placed, and then the looked-up
values of the specs in turn. -/
theorem outcome_build (b : Builder) (t : Tree) (σ : Session) :
    ((b.build lookup t).run σ).1.outcome = (b.buildLiterals t).andThen fun t' =>
      .sequence t' (b.specs.map (CompiledBuildSpec.changeNodes lookup)) := by
  rw [build, Run.run_asOperation_fst, run_buildAll]
  exact congrArg _ (funext fun t' => outcome_placeEach b.specs t' _)

end Builder

end DocumentPath
