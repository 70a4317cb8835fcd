import Mathlib
import DocumentPath.Proofs.ChangeRuns
import DocumentPath.Proofs.UntouchedLocations

/-!
# The steps of a build

A builder makes containers at its targets and places the values of its entries, each at a location of the
destination as a whole: the location of an entry is that of the target of its spec followed by its own.
`Builder.steps` lists these steps in the order in which they are taken.  A put whose lookup gives nothing or
null is not among them, nor is the target of a spec without literals while literals are placed.

A step settles what its location holds, by what the location has held before (`BuildStep.Leaves`), and
leaves everything beside its location alone.  The steps of a build that succeeds take the destination, one
after another, to the result (`Builder.takesAll_build`): a change of the container at a target is a change of
the destination below it (`BuildStep.Takes.under`).
-/

namespace DocumentPath

/-- One thing that a builder does to a destination. -/
inductive BuildStep where
  /-- Makes sure that there is a container at a target. -/
  | target (path : List Segment)
  /-- Places the value of an entry in a representation. -/
  | entry (destination : List Segment) (mode : PutMode) (value : Scalar)
      (representation : Representation)

namespace BuildStep

/-- The location that a step is about. -/
def location : BuildStep → List Segment
  | .target path => path
  | .entry destination _ _ _ => destination

/-- The step in a tree that has the tree of the step at a location. -/
def under (w : List Segment) : BuildStep → BuildStep
  | .target path => .target (w ++ path)
  | .entry destination mode value representation =>
    .entry (w ++ destination) mode value representation

/-- What the location of a step holds after it, and what it can have held before. -/
def Leaves (before after : Option Tree) : BuildStep → Prop
  | .target _ => after = some (before.getD (.map []))
  | .entry _ .put value representation =>
    ∃ x, value.coerce representation = .ok x ∧ after = some x
  | .entry _ .add value representation =>
    ∃ items x, value.coerce representation = .ok x ∧ before.getD (.array []) = .array items ∧
      after = some (.array (items ++ [x]))

/-- The step takes one tree to another. -/
structure Takes (step : BuildStep) (t t' : Tree) : Prop where
  untouched : Tree.Untouched {step.location} t t'
  leaves : step.Leaves (t.at? step.location) (t'.at? step.location)

/-- Steps take one tree to another, one after another. -/
inductive TakesAll : List BuildStep → Tree → Tree → Prop
  | nil (t : Tree) : TakesAll [] t t
  | cons {step : BuildStep} {rest : List BuildStep} {t t' t'' : Tree} :
    step.Takes t t' → TakesAll rest t' t'' → TakesAll (step :: rest) t t''

/-- Steps after other steps take a tree through both. -/
lemma TakesAll.append {steps steps' : List BuildStep} {t t' t'' : Tree} (h : TakesAll steps t t')
    (h' : TakesAll steps' t' t'') : TakesAll (steps ++ steps') t t'' := by
  induction h with
  | nil => exact h'
  | cons hstep _ ih => exact .cons hstep (ih h')

/-- A change of the node at a location takes the step below that location. -/
lemma Takes.under {step : BuildStep} {w : List Segment} {t u u' : Tree} (h : step.Takes u u')
    (hu : t.at? w = some u) : (step.under w).Takes t (t.putAt w u') := by
  have hlocation : (step.under w).location = w ++ step.location := by
    cases step <;> rfl
  refine ⟨hlocation ▸ h.untouched.under hu, ?_⟩
  rw [hlocation, Tree.at?_append, hu, Option.bind_some, Tree.at?_putAt hu]
  cases step with
  | target => exact h.leaves
  | entry _ mode => cases mode <;> exact h.leaves

/-- Changes of the node at a location take the steps below that location. -/
theorem TakesAll.under {steps : List BuildStep} {w : List Segment} {t u u' : Tree}
    (h : TakesAll steps u u') (hu : t.at? w = some u) :
    TakesAll (steps.map (·.under w)) t (t.putAt w u') := by
  induction h generalizing t with
  | nil u =>
    rw [Tree.putAt_self hu]
    exact .nil t
  | @cons step rest u u₁ u' hstep _ ih =>
    have hu₁ : (t.putAt w u₁).at? w = some u₁ := by
      have h := Tree.at?_putAt hu u₁ []
      rwa [List.append_nil] at h
    have hrest := ih hu₁
    rw [Tree.putAt_putAt hu] at hrest
    exact .cons (hstep.under hu) hrest

/-- Steps after other steps take a tree through one in between. -/
lemma TakesAll.of_append {steps steps' : List BuildStep} {t t'' : Tree}
    (h : TakesAll (steps ++ steps') t t'') : ∃ t', TakesAll steps t t' ∧ TakesAll steps' t' t'' := by
  induction steps generalizing t with
  | nil => exact ⟨t, .nil t, h⟩
  | cons step rest ih =>
    cases h with
    | cons hstep hrest =>
      obtain ⟨t', hbefore, hafter⟩ := ih hrest
      exact ⟨t', .cons hstep hbefore, hafter⟩

/-- A single step takes a tree as a list of steps. -/
lemma Takes.takesAll {step : BuildStep} {t t' : Tree} (h : step.Takes t t') : TakesAll [step] t t' :=
  .cons h (.nil t')

/-- Changes that succeed one after another take the steps of each. -/
theorem takesAll_sequence {α ε : Type} {f : α → Tree → Outcome ε} {steps : α → List BuildStep}
    (hf : ∀ a t, (f a t).error = none → TakesAll (steps a) t (f a t).tree) {as : List α} {t : Tree}
    (h : (Outcome.sequence t (as.map f)).error = none) :
    TakesAll (as.flatMap steps) t (Outcome.sequence t (as.map f)).tree := by
  induction as generalizing t with
  | nil => exact .nil t
  | cons a rest ih =>
    rw [List.map_cons, Outcome.sequence_cons] at h ⊢
    obtain ⟨hfirst, hrest, htree⟩ := Outcome.andThen_of_error_eq_none h
    rw [htree, List.flatMap_cons]
    exact (hf a t hfirst).append (ih hrest)

end BuildStep

/-! ### The steps at a pointer -/

namespace Pointer

open BuildStep (TakesAll)

/-- A container that can be opened is there, and is empty if nothing was there before. -/
theorem takes_openContainer {p : Pointer} {t : Tree} (h : (p.openContainer t).error = none) :
    (BuildStep.target p.segments).Takes t (p.openContainer t).tree where
  untouched := p.untouched_openContainer t
  leaves := at?_openContainer h

/-- Opening a container and changing it takes the steps of the change below its location. -/
lemma takesAll_openContainer {p : Pointer} {t node node' : Tree} {steps : List BuildStep}
    (hopened : (p.openContainer t).error = none)
    (hnode : p.at? (p.openContainer t).tree = some node) (h : TakesAll steps node node') :
    TakesAll (.target p.segments :: steps.map (·.under p.segments)) t
      ((p.openContainer t).tree.putAt p.segments node') :=
  .cons (takes_openContainer hopened) (h.under hnode)

/-- A value that can be written is there. -/
theorem takes_set {p : Pointer} {value : Scalar} {representation : Representation} {x t : Tree}
    (hx : value.coerce representation = .ok x) (h : (p.set x t).error = none) :
    (BuildStep.entry p.segments .put value representation).Takes t (p.set x t).tree where
  untouched := p.untouched_set x t
  leaves := ⟨x, hx, at?_set h⟩

/-- A value that can be appended follows the elements that were there before, if any. -/
theorem takes_add {p : Pointer} {value : Scalar} {representation : Representation} {x t : Tree}
    (hx : value.coerce representation = .ok x) (h : (p.add x t).error = none) :
    (BuildStep.entry p.segments .add value representation).Takes t (p.add x t).tree where
  untouched := p.untouched_add x t
  leaves := by
    obtain ⟨items, hitems, hadded⟩ := at?_add h
    exact ⟨items, x, hx, hitems, hadded⟩

end Pointer

/-! ### The steps of a spec -/

open BuildStep (TakesAll)

/-- The step that places a literal in the container at the target. -/
def LiteralPlan.step (e : LiteralPlan) : BuildStep := .entry e.into.segments .put e.value .native

/-- The step that places a looked-up value in the container at the target; none if there is no value. -/
def PutPlan.step? (lookup : Lookup) (e : PutPlan) : Option BuildStep :=
  ((lookup e.question).filter (· != .null)).map fun value =>
    .entry e.into.segments e.mode value e.question.representation

namespace CompiledBuildSpec

/-- The steps that place the literals of the spec. -/
def literalSteps (s : CompiledBuildSpec) : List BuildStep :=
  if s.literals.isEmpty then []
  else .target s.target.segments :: (s.literals.map LiteralPlan.step).map (·.under s.target.segments)

/-- The steps that place the looked-up values of the spec. -/
def putSteps (lookup : Lookup) (s : CompiledBuildSpec) : List BuildStep :=
  .target s.target.segments ::
    (s.puts.filterMap (PutPlan.step? lookup)).map (·.under s.target.segments)

/-- A literal that is placed is a step. -/
lemma takes_placeLiteral {e : LiteralPlan} {t : Tree} (h : (placeLiteral e t).error = none) :
    e.step.Takes t (placeLiteral e t).tree := by
  unfold placeLiteral at h ⊢
  cases hx : e.value.coerce .native with
  | error err =>
    rw [hx] at h
    exact absurd h (by simp [Outcome.fail])
  | ok x =>
    rw [hx] at h
    exact Pointer.takes_set hx h

/-- A looked-up value that is placed is a step. -/
lemma takes_placeValue {e : PutPlan} {value : Scalar} {t : Tree}
    (h : (placeValue e value t).error = none) :
    (BuildStep.entry e.into.segments e.mode value e.question.representation).Takes t
      (placeValue e value t).tree := by
  unfold placeValue at h ⊢
  cases hx : value.coerce e.question.representation with
  | error err =>
    rw [hx] at h
    exact absurd h (by simp [Outcome.fail])
  | ok x =>
    rw [hx] at h
    cases hmode : e.mode with
    | put =>
      rw [hmode] at h
      exact Pointer.takes_set hx h
    | add =>
      rw [hmode] at h
      exact Pointer.takes_add hx h

/-- Placing the value of an entry takes its step, if it has a value. -/
lemma takesAll_change {lookup : Lookup} {e : PutPlan} {t : Tree}
    (h : (e.change lookup t).error = none) :
    TakesAll (PutPlan.step? lookup e).toList t (e.change lookup t).tree := by
  unfold PutPlan.change at h ⊢
  unfold PutPlan.step?
  cases hvalue : (lookup e.question).filter (· != .null) with
  | none => exact .nil t
  | some value =>
    rw [hvalue] at h
    exact (takes_placeValue h).takesAll

/-- Opening the target and changing the container there takes the steps of the change below the target. -/
lemma takesAll_atTarget {s : CompiledBuildSpec} {t : Tree} {f : Tree → Outcome PathError}
    {steps : List BuildStep}
    (hf : ∀ node, (f node).error = none → TakesAll steps node (f node).tree)
    (h : (s.atTarget t f).error = none) :
    TakesAll (.target s.target.segments :: steps.map (·.under s.target.segments)) t
      (s.atTarget t f).tree := by
  unfold atTarget at h ⊢
  simp only at h ⊢
  cases hopened : (s.target.openContainer t).error with
  | some e =>
    rw [hopened] at h
    exact absurd (hopened.symm.trans h) (by simp)
  | none =>
    obtain ⟨node, hnode⟩ := Pointer.exists_openContainer hopened
    rw [hopened, hnode] at h
    simp only [hnode]
    exact Pointer.takesAll_openContainer hopened hnode (hf node h)

/-- Placing the literals takes their steps. -/
theorem takesAll_placeLiterals {s : CompiledBuildSpec} {t : Tree}
    (h : (s.placeLiterals t).error = none) :
    TakesAll s.literalSteps t (s.placeLiterals t).tree := by
  unfold placeLiterals at h ⊢
  unfold literalSteps
  cases hempty : s.literals.isEmpty with
  | true =>
    rw [if_pos rfl, if_pos rfl]
    exact .nil t
  | false =>
    rw [hempty, if_neg Bool.false_ne_true] at h
    rw [if_neg Bool.false_ne_true, if_neg Bool.false_ne_true]
    refine takesAll_atTarget (fun node hplaced => ?_) h
    rw [List.map_eq_flatMap]
    exact BuildStep.takesAll_sequence (f := placeLiteral)
      (fun _ _ he => (takes_placeLiteral he).takesAll) hplaced

/-- Placing the looked-up values takes their steps. -/
theorem takesAll_changeNodes {lookup : Lookup} {s : CompiledBuildSpec} {t : Tree}
    (h : (s.changeNodes lookup t).error = none) :
    TakesAll (s.putSteps lookup) t (s.changeNodes lookup t).tree := by
  refine takesAll_atTarget (fun node hplaced => ?_) h
  rw [List.filterMap_eq_flatMap_toList]
  exact BuildStep.takesAll_sequence (fun _ _ he => takesAll_change he) hplaced

end CompiledBuildSpec

/-! ### The steps of a builder -/

namespace Builder

/-- The steps of the builder, in the order in which they are taken. -/
def steps (b : Builder) (lookup : Lookup) : List BuildStep :=
  b.specs.flatMap CompiledBuildSpec.literalSteps ++ b.specs.flatMap (·.putSteps lookup)

/-- A build that succeeds takes the steps of the builder. -/
theorem takesAll_build {b : Builder} {lookup : Lookup} {t : Tree} {σ : Session}
    (h : ((b.build lookup t).run σ).1.outcome.error = none) :
    TakesAll (b.steps lookup) t ((b.build lookup t).run σ).1.outcome.tree := by
  rw [outcome_build] at h ⊢
  obtain ⟨hliterals, hnodes, htree⟩ := Outcome.andThen_of_error_eq_none h
  rw [htree]
  exact (BuildStep.takesAll_sequence (fun _ _ hs => CompiledBuildSpec.takesAll_placeLiterals hs)
    hliterals).append
    (BuildStep.takesAll_sequence (fun _ _ hs => CompiledBuildSpec.takesAll_changeNodes hs) hnodes)

end Builder

end DocumentPath
