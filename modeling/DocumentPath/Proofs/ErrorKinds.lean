import Mathlib
import DocumentPath.Copier.Run
import DocumentPath.Proofs.ChangeRuns
import DocumentPath.Proofs.CopyWalks
import DocumentPath.Proofs.DistinctKeys
import DocumentPath.Proofs.Rebuilding

/-!
# What runs fail with

A run of a builder only ever fails with an error of a change: a missing container, an operation that a tree or
a transform does not allow, or a value that cannot be converted.  So does a run of a copier, unless it is a
function of the caller's that refuses a node with an error of its own.  Neither finds fault with a path, since
a path that is run has been compiled, as long as the caller's functions do not either
(`Transform.SparesPaths`).

`Outcome.FailsWith P` says of one change that an error of it satisfies `P`.  What is composed of changes that
fail with such errors only does so as well, from single locations up to whole engines (`Copier.failsWith_copy`,
`Builder.failsWith_build`).
-/

namespace DocumentPath

namespace Outcome

variable {ε δ : Type} {P : ε → Prop}

/-- If the change was stopped, its error satisfies `P`. -/
def FailsWith (P : ε → Prop) (o : Outcome ε) : Prop := ∀ e, o.error = some e → P e

/-- An outcome that fails with one kind of errors fails with any wider kind. -/
lemma FailsWith.mono {Q : ε → Prop} {o : Outcome ε} (h : o.FailsWith P) (hPQ : ∀ e, P e → Q e) :
    o.FailsWith Q := fun e he => hPQ e (h e he)

/-- A success does not fail. -/
lemma failsWith_ok (t : Tree) : (ok t).FailsWith P := fun _ h => absurd h (by simp [ok])

/-- A failure fails with its error. -/
lemma failsWith_fail {e : ε} (h : P e) (t : Tree) : (fail e t).FailsWith P := by
  intro e' he
  rwa [← Option.some.inj he]

/-- The outcome of a computation fails with the errors of the computation. -/
lemma failsWith_ofExcept {result : Except ε Tree} (h : ∀ e, result = .error e → P e) (t : Tree) :
    (ofExcept t result).FailsWith P := by
  cases result with
  | ok t' => exact failsWith_ok t'
  | error e => exact failsWith_fail (h e rfl) t

/-- An outcome whose errors have been named fails with named errors. -/
lemma failsWith_mapError {f : δ → ε} (h : ∀ e, P (f e)) (o : Outcome δ) :
    (o.mapError f).FailsWith P := by
  intro e he
  obtain ⟨e', -, rfl⟩ := Option.map_eq_some_iff.mp he
  exact h e'

/-- What a change of a node fails with, the change of the tree around it fails with. -/
lemma FailsWith.within {o : Outcome ε} (h : o.FailsWith P) (t : Tree) (path : List Segment) :
    (o.within t path).FailsWith P := h

/-- Two changes in turn fail with the errors of either. -/
lemma FailsWith.andThen {o : Outcome ε} {f : Tree → Outcome ε} (h : o.FailsWith P)
    (hf : ∀ t, (f t).FailsWith P) : (o.andThen f).FailsWith P := by
  rw [Outcome.andThen]
  split
  · exact hf o.tree
  · exact h

/-- A sequence of changes fails with the errors of any of them. -/
lemma failsWith_sequence {fs : List (Tree → Outcome ε)} (h : ∀ f ∈ fs, ∀ t, (f t).FailsWith P)
    (t : Tree) : (sequence t fs).FailsWith P := by
  induction fs generalizing t with
  | nil => exact failsWith_ok t
  | cons f rest ih =>
    rw [sequence_cons]
    exact (h f List.mem_cons_self t).andThen (ih fun g hg => h g (List.mem_cons_of_mem f hg))

end Outcome

open Outcome (FailsWith failsWith_ok failsWith_fail failsWith_ofExcept failsWith_mapError
  failsWith_sequence)

/-! ### Changes of many nodes -/

namespace Tree

variable {ε : Type} {P : ε → Prop} {f : Tree → Outcome ε}

/-- A change of items in turn fails with the errors that it has on one of the items. -/
lemma of_changeItems_error {items : List Tree} (h : ∀ t ∈ items, (f t).FailsWith P) {e : ε}
    (he : (changeItems f items).2 = some e) : P e := by
  induction items with
  | nil => exact absurd he (by simp [changeItems])
  | cons t rest ih =>
    rw [List.forall_mem_cons] at h
    rw [changeItems] at he
    cases ht : (f t).error with
    | some e' =>
      rw [ht] at he
      exact h.1 e (ht.trans he)
    | none =>
      rw [ht] at he
      exact ih h.2 he

/-- A change of the children fails with the errors that it has on one of the children. -/
lemma failsWith_changeChildren {t : Tree} (h : ∀ c ∈ t.children, (f c).FailsWith P) :
    (changeChildren f t).FailsWith P := by
  rw [changeChildren_eq]
  exact fun _ => of_changeItems_error h

/-- A change from the leaves up fails with the errors that it has on any node. -/
lemma failsWith_changeUp (h : ∀ t, (f t).FailsWith P) (t : Tree) : (changeUp f t).FailsWith P := by
  induction t using byChildren with
  | step t ih =>
    rw [changeUp_eq]
    exact (failsWith_changeChildren ih).andThen h

end Tree

/-! ### Errors of changes -/

namespace PathError

/-- An error of a change: a container is missing, a tree, spec or transform does not allow the operation, or a
value cannot be converted. -/
def OfChange (e : PathError) : Prop :=
  e.kind = .missingParent ∨ e.kind = .invalidOperation ∨ e.kind = .unsupportedCoercion

/-- A missing container is found by a change. -/
lemma ofChange_missingParent (path : String) : (missingParent path).OfChange := .inl rfl

/-- That an operation is not allowed is found by a change. -/
lemma ofChange_invalidOperation (path reason : String) : (invalidOperation path reason).OfChange :=
  .inr (.inl rfl)

/-- That a value cannot be converted is found by a change. -/
lemma ofChange_unsupportedCoercion (value : String) (r : Representation) :
    (unsupportedCoercion value r).OfChange := .inr (.inr rfl)

/-- An error that finds fault neither with a path nor with a spec. -/
def SparesPaths (e : PathError) : Prop := e.kind ≠ .malformedPath ∧ e.kind ≠ .specValidation

/-- The error of a change finds fault with no path and no spec. -/
lemma OfChange.sparesPaths {e : PathError} (h : e.OfChange) : e.SparesPaths := by
  unfold SparesPaths
  rcases h with h | h | h <;> simp [h]

end PathError

open PathError (OfChange SparesPaths ofChange_missingParent ofChange_invalidOperation
  ofChange_unsupportedCoercion)

/-- An obstacle at a location is the error of a change. -/
lemma Obstacle.ofChange_at (o : Obstacle) (p : Pointer) : (o.at p).OfChange :=
  ofChange_invalidOperation _ _

/-- A conversion fails with errors of changes only. -/
lemma Conversion.ofChange_of_apply {c : Conversion} {t : Tree} {e : PathError}
    (h : c.apply t = .error e) : e.OfChange := by
  unfold apply at h
  split at h
  · exact absurd h (by simp)
  · cases hc : c.convert? t with
    | some image => exact absurd h (by simp [hc])
    | none =>
      rw [hc] at h
      obtain rfl := Except.error.inj h
      exact ofChange_unsupportedCoercion _ _

/-- A replacement of a text refuses any other node with an error of a change. -/
lemma TextReplacement.ofChange_of_apply {r : TextReplacement} {t : Tree} {e : PathError}
    (h : r.apply t = .error e) : e.OfChange := by
  cases t with
  | text s => exact absurd h (by simp [apply])
  | null | bool | number | array | map =>
    obtain rfl := Except.error.inj h
    exact ofChange_invalidOperation _ _

/-- The transform never finds fault with a path.  This is asked of a function of the caller's only, where it
refuses a node. -/
def Transform.SparesPaths : Transform → Prop
  | .convert _ | .replaceText _ => True
  | .function f => ∀ t e, f t = .error e → e.SparesPaths

/-- A function of the caller's that refuses no node spares paths. -/
lemma Transform.sparesPaths_function_ok (f : Tree → Tree) :
    (Transform.function fun t => .ok (f t)).SparesPaths := nofun

/-- What a transform that spares paths fails with spares paths. -/
lemma Transform.SparesPaths.of_apply {f : Transform} (hf : f.SparesPaths) {t : Tree} {e : PathError}
    (h : f.apply t = .error e) : e.SparesPaths := by
  cases f with
  | convert c => exact (Conversion.ofChange_of_apply h).sparesPaths
  | replaceText r => exact (TextReplacement.ofChange_of_apply h).sparesPaths
  | function f => exact hf t e h

/-- A reset leaves a transform one that spares paths. -/
lemma Transform.SparesPaths.reset {f : Transform} (hf : f.SparesPaths) (arguments : Arguments) :
    (f.reset arguments).SparesPaths := by
  cases f with
  | convert | replaceText => trivial
  | function => exact hf

/-- A coercion fails with errors of changes only. -/
lemma Scalar.ofChange_of_coerce {v : Scalar} {r : Representation} {e : PathError}
    (h : v.coerce r = .error e) : e.OfChange := by
  unfold coerce at h
  cases hv : v.coerce? r with
  | some t => exact absurd h (by simp [hv])
  | none =>
    rw [hv] at h
    obtain rfl := Except.error.inj h
    exact ofChange_unsupportedCoercion _ _

/-! ### One location -/

namespace Pointer

/-- Setting a value at a location fails with errors of changes only. -/
lemma failsWith_set (p : Pointer) (v t : Tree) : (p.set v t).FailsWith OfChange := by
  unfold set
  split
  · exact failsWith_ok v
  · exact failsWith_mapError (·.ofChange_at p) _

/-- Adding a value at a location fails with errors of changes only. -/
lemma failsWith_add (p : Pointer) (v t : Tree) : (p.add v t).FailsWith OfChange := by
  unfold add
  split
  · split
    · exact failsWith_ok _
    · exact failsWith_fail (Obstacle.ofChange_at _ p) t
  · exact failsWith_mapError (·.ofChange_at p) _

/-- Opening a container at a location fails with errors of changes only. -/
lemma failsWith_openContainer (p : Pointer) (t : Tree) : (p.openContainer t).FailsWith OfChange := by
  unfold openContainer
  split
  · split
    · exact failsWith_ok t
    · exact failsWith_fail (Obstacle.ofChange_at _ p) t
  · exact failsWith_mapError (·.ofChange_at p) _

/-- A copy of one location under a placement fails with errors of changes only. -/
lemma failsWith_copyPlaced (p : Pointer) (source : Tree) (filter : Option Filter) (pl : Placement)
    (t : Tree) : (p.copyPlaced source filter pl t).1.FailsWith OfChange := by
  unfold copyPlaced
  split
  · exact failsWith_ok t
  · split
    · split
      · exact failsWith_mapError (·.ofChange_at p) _
      · exact failsWith_mapError (·.ofChange_at p) _
    · exact failsWith_ok t

/-- A run of copies fails with errors of changes only. -/
lemma failsWith_copyEach (source : Tree) (filter : Option Filter) (ps : List Pointer) (pl : Placement)
    (t : Tree) : (copyEach source filter ps pl t).1.FailsWith OfChange := by
  induction ps generalizing pl t with
  | nil => exact failsWith_ok t
  | cons p rest ih =>
    have hfirst := p.failsWith_copyPlaced source filter pl t
    cases h : (p.copyPlaced source filter pl t).1.error with
    | none =>
      rw [copyEach_cons_of_ok h]
      exact ih _ _
    | some e =>
      rw [copyEach_cons_of_error h]
      exact hfirst

/-- A transform at one location fails as the transform itself does, or because there is no place for it. -/
lemma failsWith_apply {P : PathError → Prop} (hP : ∀ e, e.OfChange → P e)
    {f : Tree → Except PathError Tree} (h : ∀ t e, f t = .error e → P e) (p : Pointer) (t : Tree) :
    (p.apply f t).FailsWith P := by
  unfold apply
  split
  · exact failsWith_ofExcept (h t) t
  · split
    · exact failsWith_fail (hP _ (ofChange_missingParent _)) t
    · split
      · split
        · exact failsWith_ok t
        · next v _ => exact (failsWith_ofExcept (h v) v).within _ _
      · exact failsWith_fail (hP _ (Obstacle.ofChange_at _ p)) t

end Pointer

/-! ### All matches -/

/-- A transform of all matches fails as the transform itself does. -/
lemma Stage.failsWith_apply {P : PathError → Prop} {f : Tree → Except PathError Tree}
    (h : ∀ t e, f t = .error e → P e) (stages : List Stage) (t : Tree) :
    (Stage.apply f stages t).FailsWith P := by
  induction stages generalizing t with
  | nil => exact failsWith_ok t
  | cons stage rest ih =>
    cases stage with
    | terminal => exact failsWith_ofExcept (h t) t
    | literal p =>
      rw [Stage.apply]
      split
      · exact (ih _).within _ _
      · exact failsWith_ok t
    | wildcard => exact Tree.failsWith_changeChildren fun c _ => ih c
    | descent => exact Tree.failsWith_changeUp ih t

namespace Selector

/-- A copy through a selector fails with errors of changes only. -/
lemma failsWith_copy (s : Selector) (fast : Bool) (source : Tree) (filter : Option Filter) (t : Tree) :
    (s.copy fast source filter t).FailsWith OfChange := by
  rw [copy_eq_copyEach]
  exact Pointer.failsWith_copyEach source filter _ _ t

/-- A transform that spares paths does so through any selector. -/
lemma failsWith_apply (s : Selector) {f : Transform} (hf : f.SparesPaths) (t : Tree) :
    (s.apply f.apply t).FailsWith SparesPaths := by
  unfold apply
  split
  · next p _ => exact p.failsWith_apply (fun _ => OfChange.sparesPaths) (fun _ _ => hf.of_apply) t
  · exact Stage.failsWith_apply (fun _ _ => hf.of_apply) s.stages t

end Selector

/-! ### Copiers -/

/-- A run of changes fails with the errors of any of them. -/
lemma Run.failsWith_each {α ε : Type} {P : ε → Prop} {f : α → Tree → Run (Outcome ε)} {as : List α}
    (h : ∀ a ∈ as, ∀ t σ, ((f a t).run σ).1.FailsWith P) (t : Tree) (σ : Session) :
    ((each f as t).run σ).1.FailsWith P := by
  induction as generalizing t σ with
  | nil => exact failsWith_ok t
  | cons a rest ih =>
    rw [List.forall_mem_cons] at h
    rw [run_each_cons]
    exact (h.1 t σ).andThen fun t' => ih h.2 t' _

namespace CompiledRecord

/-- The transforms of the record never find fault with a path. -/
def SparesPaths (r : CompiledRecord) : Prop := ∀ e ∈ r.transforms, e.2.SparesPaths

/-- A record whose transforms spare paths spares them at every match. -/
lemma failsWith_copyMatch {r : CompiledRecord} (hr : r.SparesPaths) (fast : Bool) (value t : Tree)
    (σ : Session) : ((r.copyMatch fast value t).run σ).1.FailsWith PathError.SparesPaths := by
  have hincludes : (r.copyIncludes fast value t).FailsWith PathError.SparesPaths := by
    refine failsWith_sequence (fun f hf t => ?_) t
    obtain ⟨⟨s, filter⟩, -, rfl⟩ := List.mem_map.mp hf
    exact (s.failsWith_copy fast value filter t).mono fun _ => OfChange.sparesPaths
  have htransform : ∀ t, (r.transform t).FailsWith PathError.SparesPaths := by
    refine failsWith_sequence fun f hf t => ?_
    obtain ⟨⟨s, f⟩, he, rfl⟩ := List.mem_map.mp hf
    exact s.failsWith_apply (hr _ he) t
  unfold copyMatch
  split
  · simp only
    split
    · exact hincludes
    · exact htransform _
  · exact failsWith_ok t

/-- A record whose transforms spare paths spares them. -/
lemma failsWith_copy {r : CompiledRecord} (hr : r.SparesPaths) (fast : Bool) (source t : Tree)
    (σ : Session) : ((r.copy fast source t).run σ).1.FailsWith PathError.SparesPaths :=
  Run.failsWith_each (fun value _ => failsWith_copyMatch hr fast value) t _

end CompiledRecord

/-- The transforms of the spec never find fault with a path. -/
def CompiledCopySpec.SparesPaths (s : CompiledCopySpec) : Prop := ∀ r ∈ s.records, r.SparesPaths

/-- A spec whose transforms spare paths spares them. -/
lemma CompiledCopySpec.failsWith_copy {s : CompiledCopySpec} (hs : s.SparesPaths) (fast : Bool)
    (source t : Tree) (σ : Session) :
    ((s.copy fast source t).run σ).1.FailsWith PathError.SparesPaths := by
  unfold copy
  simp only
  split
  · exact Run.failsWith_each (fun r hr => CompiledRecord.failsWith_copy (hs r hr) fast source) _ _
  · exact (s.target.failsWith_openContainer t).mono fun _ => OfChange.sparesPaths

namespace Copier

/-- The transforms of the copier never find fault with a path. -/
def SparesPaths (c : Copier) : Prop := ∀ s ∈ c.specs, s.SparesPaths

/-- A copier whose transforms spare paths never finds fault with a path. -/
theorem failsWith_copy {c : Copier} (hc : c.SparesPaths) (source t : Tree) (σ : Session) :
    ((c.copy source t).run σ).1.FailsWith PathError.SparesPaths := by
  obtain ⟨σ', hrun⟩ := Run.run_asOperation .copier "copy" c.size Outcome.error (c.copyAll source t) σ
  rw [copy, hrun]
  exact Run.failsWith_each (fun s hs => CompiledCopySpec.failsWith_copy (hc s hs) c.fast source) t σ'

end Copier

/-! ### Builders -/

namespace CompiledBuildSpec

/-- Placing a literal fails with errors of changes only. -/
lemma failsWith_placeLiteral (e : LiteralPlan) (t : Tree) :
    (placeLiteral e t).FailsWith OfChange := by
  unfold placeLiteral
  split
  · exact e.into.failsWith_set _ t
  · next h => exact failsWith_fail (Scalar.ofChange_of_coerce h) t

/-- What is done at the target fails as it does there, or because the target cannot be opened. -/
lemma failsWith_atTarget (s : CompiledBuildSpec) (t : Tree) {f : Tree → Outcome PathError}
    (hf : ∀ node, (f node).FailsWith OfChange) : (s.atTarget t f).FailsWith OfChange := by
  unfold atTarget
  simp only
  split
  · exact (hf _).within _ _
  · exact s.target.failsWith_openContainer t

/-- Placing the literals of a spec fails with errors of changes only. -/
lemma failsWith_placeLiterals (s : CompiledBuildSpec) (t : Tree) :
    (s.placeLiterals t).FailsWith OfChange := by
  unfold placeLiterals
  split
  · exact failsWith_ok t
  · refine s.failsWith_atTarget t (failsWith_sequence fun f hf t => ?_)
    obtain ⟨e, -, rfl⟩ := List.mem_map.mp hf
    exact failsWith_placeLiteral e t

/-- Placing a looked-up value fails with errors of changes only. -/
lemma failsWith_placeValue (e : PutPlan) (value : Scalar) (t : Tree) :
    (placeValue e value t).FailsWith OfChange := by
  unfold placeValue
  split
  · next h => exact failsWith_fail (Scalar.ofChange_of_coerce h) t
  · split
    · exact e.into.failsWith_set _ t
    · exact e.into.failsWith_add _ t

/-- What an entry does to the node at the target fails with errors of changes only. -/
lemma failsWith_change (lookup : Lookup) (e : PutPlan) (t : Tree) :
    (e.change lookup t).FailsWith OfChange := by
  unfold PutPlan.change
  cases (lookup e.question).filter (· != .null) with
  | none => exact failsWith_ok t
  | some value => exact failsWith_placeValue e value t

/-- Placing the looked-up values of a spec fails with errors of changes only. -/
lemma failsWith_changeNodes (lookup : Lookup) (s : CompiledBuildSpec) (t : Tree) :
    (s.changeNodes lookup t).FailsWith OfChange := by
  refine s.failsWith_atTarget t (failsWith_sequence fun f hf t => ?_)
  obtain ⟨e, -, rfl⟩ := List.mem_map.mp hf
  exact failsWith_change lookup e t

end CompiledBuildSpec

namespace Builder

/-- A builder only fails with errors of changes. -/
theorem failsWith_build (b : Builder) (lookup : Lookup) (t : Tree) (σ : Session) :
    ((b.build lookup t).run σ).1.outcome.FailsWith OfChange := by
  have hspecs : ∀ {f : CompiledBuildSpec → Tree → Outcome PathError},
      (∀ s t, (f s t).FailsWith OfChange) →
      ∀ t, (Outcome.sequence t (b.specs.map f)).FailsWith OfChange := by
    intro f hf
    refine failsWith_sequence fun g hg t => ?_
    obtain ⟨s, -, rfl⟩ := List.mem_map.mp hg
    exact hf s t
  rw [outcome_build]
  exact (hspecs CompiledBuildSpec.failsWith_placeLiterals t).andThen
    (hspecs (CompiledBuildSpec.failsWith_changeNodes lookup))

end Builder

end DocumentPath
