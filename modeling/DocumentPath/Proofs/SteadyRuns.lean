import Mathlib
import DocumentPath.Copier.Run
import DocumentPath.Proofs.ChangeRuns
import DocumentPath.Proofs.RemovalSteps

/-!
# Steady runs

A computation is steady if it comes to one and the same result with every faithful cache, whatever has been
logged.  Since a steady computation never shows what the cache holds, its result is `Run.value`, the result
with an empty cache.

Everything that a copier does is steady: compiling its specs (`Copier.steady_ofSpecs`) and running them
(`Copier.steady_copy`).
-/

namespace DocumentPath

namespace Run

variable {α β ε : Type}

/-- The computation comes to the same result with every faithful cache. -/
def Steady (m : Run α) : Prop := ∃ a, Returns m a

/-- The result with an empty cache. -/
def value (m : Run α) : α := (m.run (.ofCapacity 1)).1

/-- What a computation comes to is its value. -/
lemma Returns.value_eq {m : Run α} {a : α} (h : Returns m a) : m.value = a :=
  (h _ (Cache.faithful_ofCapacity 1)).1

/-- A steady computation comes to its value with every faithful cache. -/
theorem Steady.returns {m : Run α} (h : Steady m) : Returns m m.value := by
  obtain ⟨a, ha⟩ := h
  rwa [ha.value_eq]

/-- From a session with a faithful cache a steady computation comes to its value. -/
lemma Steady.run_eq {m : Run α} (h : Steady m) {σ : Session} (hσ : σ.cache.Faithful) :
    (m.run σ).1 = m.value := (h.returns σ hσ).1

/-- A result that is there already is steady. -/
lemma steady_pure (a : α) : Steady (pure a) := ⟨a, returns_pure a⟩

/-- Two steady computations in turn are steady. -/
lemma Steady.bind {m : Run α} {f : α → Run β} (hm : Steady m) (hf : ∀ a, Steady (f a)) :
    Steady (m >>= f) := by
  obtain ⟨a, ha⟩ := hm
  obtain ⟨b, hb⟩ := hf a
  exact ⟨b, ha.bind hb⟩

/-- What a function makes of a computation is what it makes of the result. -/
lemma Returns.map {m : Run α} {a : α} (hm : Returns m a) (f : α → β) :
    Returns (f <$> m) (f a) := by
  rw [map_eq_pure_bind]
  exact hm.bind (returns_pure (f a))

/-- A function of the result of a steady computation is steady. -/
lemma Steady.map {m : Run α} (hm : Steady m) (f : α → β) : Steady (f <$> m) := by
  obtain ⟨a, ha⟩ := hm
  exact ⟨f a, ha.map f⟩

/-- The value of two computations in turn. -/
lemma Steady.value_bind {m : Run α} {f : α → Run β} (hm : Steady m) (hf : ∀ a, Steady (f a)) :
    (m >>= f).value = (f m.value).value := (hm.returns.bind (hf m.value).returns).value_eq

end Run

namespace Session

/-- A report comes to nothing but the report. -/
lemma returns_report (e : Event) : (report e).Returns () := fun _ hσ => ⟨rfl, hσ⟩

/-- A report is steady. -/
lemma steady_report (e : Event) : (report e).Steady := ⟨_, returns_report e⟩

/-- Asking a faithful cache for a pointer is steady. -/
lemma steady_pointer (s : Segment) : (pointer s).Steady := ⟨_, returns_pointer s⟩

end Session

open Run (Steady steady_pure)

namespace Run

variable {α ε : Type}

/-- A run of steady changes is steady. -/
lemma steady_each {f : α → Tree → Run (Outcome ε)} (h : ∀ a t, Steady (f a t)) (as : List α)
    (t : Tree) : Steady (each f as t) := by
  induction as generalizing t with
  | nil => exact steady_pure _
  | cons a rest ih =>
    refine (h a t).bind fun o => ?_
    cases o.error with
    | none => exact ih o.tree
    | some e => exact steady_pure o

/-- The report of an operation does not change what it comes to. -/
lemma Returns.asOperation {body : Run α} {a : α} (h : Returns body a) (component : Component)
    (operation : String) (specs : ℕ) (error? : α → Option PathError) :
    Returns (asOperation component operation specs error? body) a := by
  refine (Session.returns_report _).bind (h.bind ?_)
  cases error? a with
  | none => exact (Session.returns_report _).bind (returns_pure a)
  | some e => exact (Session.returns_report _).bind (returns_pure a)

end Run

/-! ### What a run meets -/

namespace Run

variable {α ε : Type} {f : α → Tree → Run (Outcome ε)}

/-- The things of a run, each with the tree that its change finds, up to the first change that fails. -/
def met (f : α → Tree → Run (Outcome ε)) : List α → Tree → List (α × Tree)
  | [], _ => []
  | a :: rest, t =>
    (a, t) :: if (f a t).value.error.isNone then met f rest (f a t).value.tree else []

/-- The value of a run of steady changes. -/
lemma value_each_cons (h : ∀ a t, Steady (f a t)) (a : α) (rest : List α) (t : Tree) :
    (each f (a :: rest) t).value
      = (f a t).value.andThen fun t' => (each f rest t').value := by
  rw [each, (h a t).value_bind fun o => ?_, Outcome.andThen]
  · cases (f a t).value.error <;> rfl
  · cases o.error with
    | none => exact steady_each h rest o.tree
    | some e => exact steady_pure o

/-- What every change of a run leaves true is true of the trees that the changes find. -/
theorem invariant_met {P : Tree → Prop} {as : List α}
    (h : ∀ a ∈ as, ∀ t, P t → P (f a t).value.tree) {t : Tree} (ht : P t) :
    ∀ m ∈ met f as t, m.1 ∈ as ∧ P m.2 := by
  induction as generalizing t with
  | nil => exact nofun
  | cons a rest ih =>
    intro m hm
    rcases List.mem_cons.mp hm with rfl | hm
    · exact ⟨List.mem_cons_self, ht⟩
    · split at hm
      · obtain ⟨hmem, hP⟩ := ih (fun b hb => h b (List.mem_cons_of_mem _ hb))
          (h a List.mem_cons_self t ht) m hm
        exact ⟨List.mem_cons_of_mem _ hmem, hP⟩
      · exact absurd hm List.not_mem_nil

/-- A run that succeeds ends as its last change does. -/
theorem exists_met_of_getLast? (h : ∀ a t, Steady (f a t)) {as : List α} {a : α}
    (hlast : as.getLast? = some a) {t : Tree} (hok : (each f as t).value.error = none) :
    ∃ u, (a, u) ∈ met f as t ∧ (each f as t).value = (f a u).value := by
  induction as generalizing t with
  | nil => exact absurd hlast (by simp)
  | cons b rest ih =>
    rw [value_each_cons h] at hok ⊢
    obtain ⟨hfirst, hrest, -⟩ := Outcome.andThen_of_error_eq_none hok
    have hgo : ((f b t).value.andThen fun t' => (each f rest t').value)
        = (each f rest (f b t).value.tree).value := by
      rw [Outcome.andThen, hfirst]
    rw [hgo]
    cases rest with
    | nil =>
      obtain rfl : b = a := by simpa using hlast
      have hdone : (f b t).value = .ok (f b t).value.tree := by
        rw [Outcome.ok, ← hfirst]
      exact ⟨t, List.mem_cons_self, hdone.symm⟩
    | cons c rest =>
      rw [List.getLast?_cons_cons] at hlast
      obtain ⟨u, hmem, hvalue⟩ := ih hlast hrest
      refine ⟨u, List.mem_cons_of_mem _ ?_, hvalue⟩
      rw [hfirst]
      exact hmem

end Run

/-! ### Removals -/

namespace Removal

variable {f : Tree → Run Removal}

/-- A steady removal is steady in all items. -/
lemma steady_fromItems (h : ∀ t, Steady (f t)) (items : List Tree) : Steady (fromItems f items) := by
  induction items with
  | nil => exact steady_pure _
  | cons t rest ih => exact (h t).bind fun _ => ih.bind fun _ => steady_pure _

/-- A steady removal is steady in all fields. -/
lemma steady_fromFields (h : ∀ t, Steady (f t)) (fields : List (String × Tree)) :
    Steady (fromFields f fields) := by
  induction fields with
  | nil => exact steady_pure _
  | cons e rest ih => exact (h e.2).bind fun _ => ih.bind fun _ => steady_pure _

/-- A steady removal is steady in all children. -/
lemma steady_fromChildren (h : ∀ t, Steady (f t)) (t : Tree) : Steady (fromChildren f t) := by
  cases t with
  | array items => exact (steady_fromItems h items).bind fun _ => steady_pure _
  | map fields => exact (steady_fromFields h fields).bind fun _ => steady_pure _
  | null | bool | number | text => exact steady_pure _

/-- A steady removal is steady from a node down. -/
lemma steady_downwards (h : ∀ t, Steady (f t)) (depth : ℕ) (t : Tree) :
    Steady (downwards f depth t) := by
  induction depth generalizing t with
  | zero => exact h t
  | succ depth ih =>
    exact (h t).bind fun here => (steady_fromChildren ih here.tree).bind fun _ => steady_pure _

/-- Removing children one after another is steady. -/
lemma steady_ofSegments (segments : List Segment) (t : Tree) : Steady (ofSegments segments t) := by
  induction segments generalizing t with
  | nil => exact steady_pure _
  | cons s rest ih =>
    exact (Session.steady_pointer s).bind fun p => (ih _).bind fun _ => steady_pure _

/-- Removing all children is steady. -/
lemma steady_ofChildren (t : Tree) : Steady (ofChildren t) := by
  unfold ofChildren
  cases t.kind with
  | array => exact (steady_ofSegments _ t).bind fun _ => steady_pure _
  | map | value => exact steady_ofSegments _ t

/-- Removing through stages comes to the same result with every faithful cache. -/
theorem steady_ofStages (stages : List Stage) (t : Tree) : Steady (ofStages stages t) := by
  induction stages generalizing t with
  | nil => exact steady_pure _
  | cons stage rest ih =>
    by_cases hlast : rest = [.terminal]
    · subst hlast
      cases stage with
      | literal | terminal => exact steady_pure _
      | wildcard | descent => exact steady_ofChildren t
    · cases stage with
      | terminal => exact steady_pure _
      | literal p =>
        rw [ofStages_literal hlast]
        cases p.at? t with
        | none => exact steady_pure _
        | some c => exact (ih c).bind fun _ => steady_pure _
      | wildcard =>
        rw [ofStages_wildcard hlast]
        exact steady_fromChildren ih t
      | descent =>
        rw [ofStages_descent hlast]
        exact steady_downwards ih _ t

end Removal

/-- Removing through a selector is steady. -/
lemma Selector.steady_remove (s : Selector) (t : Tree) : Steady (s.remove t) := by
  unfold remove
  cases s.asPointer? with
  | none => exact Removal.steady_ofStages s.stages t
  | some p => exact steady_pure _

/-! ### Copiers -/

namespace CompiledRecord

/-- Removing the excludes of a record is steady. -/
lemma steady_removeExcluded (excludes : List Selector) (t : Tree) :
    Steady (removeExcluded excludes t) := by
  induction excludes generalizing t with
  | nil => exact steady_pure t
  | cons s rest ih => exact (s.steady_remove t).bind fun removal => ih removal.tree

/-- Carrying out a record for one match is steady. -/
lemma steady_copyMatch (r : CompiledRecord) (fast : Bool) (value t : Tree) :
    Steady (r.copyMatch fast value t) := by
  unfold copyMatch
  split
  · simp only
    split
    · exact steady_pure _
    · exact (steady_removeExcluded r.excludes _).bind fun _ => steady_pure _
  · exact steady_pure _

/-- Carrying out a record is steady. -/
lemma steady_copy (fast : Bool) (source : Tree) (r : CompiledRecord) (t : Tree) :
    Steady (copy fast source r t) :=
  (Session.steady_report _).bind fun _ => Run.steady_each (r.steady_copyMatch fast) _ t

end CompiledRecord

/-- Running a spec is steady. -/
lemma CompiledCopySpec.steady_copy (fast : Bool) (source : Tree) (s : CompiledCopySpec) (t : Tree) :
    Steady (copy fast source s t) := by
  unfold copy
  simp only
  split
  · exact (Run.steady_each (CompiledRecord.steady_copy fast source) _ _).bind fun _ => steady_pure _
  · exact steady_pure _

namespace Copier

/-- Running all specs of a copier is steady. -/
lemma steady_copyAll (c : Copier) (source t : Tree) : Steady (c.copyAll source t) :=
  Run.steady_each (CompiledCopySpec.steady_copy c.fast source) c.specs t

/-- A copy comes to the same result with every faithful cache. -/
theorem steady_copy (c : Copier) (source t : Tree) : Steady (c.copy source t) := by
  obtain ⟨o, ho⟩ := c.steady_copyAll source t
  exact ⟨o, ho.asOperation _ _ _ _⟩

/-- Copying with arguments is steady. -/
theorem steady_copyWith (c : Copier) (arguments : Arguments) (source t : Tree) :
    Steady (c.copyWith arguments source t) :=
  ((c.reset arguments).steady_copy source t).bind fun _ => steady_pure _

end Copier

/-! ### Compilation -/

namespace Run

variable {α β : Type}

/-- Compiling goes on from a result. -/
lemma Returns.compilation_bind {m : Compilation α} {f : α → Compilation β} {a : α}
    {b : Except PathError β} (hm : Returns m.run (.ok a)) (hf : Returns (f a).run b) :
    Returns (m >>= f).run b := by
  rw [ExceptT.run_bind]
  exact hm.bind hf

/-- Compiling stops with an error. -/
lemma Returns.compilation_stop {m : Compilation α} (f : α → Compilation β) {e : PathError}
    (hm : Returns m.run (.error e)) : Returns (m >>= f).run (.error e) := by
  rw [ExceptT.run_bind]
  exact hm.bind (returns_pure _)

/-- A computation that cannot fail comes to its result as a compilation. -/
lemma Returns.compilation_lift {m : Run α} {a : α} (hm : Returns m a) :
    Returns (liftM m : Compilation α).run (.ok a) := hm.map Except.ok

/-- Two steady compilations in turn are steady. -/
lemma Steady.compilation_bind {m : Compilation α} {f : α → Compilation β} (hm : Steady m.run)
    (hf : ∀ a, Steady (f a).run) : Steady (m >>= f).run := by
  obtain ⟨e | a, hm⟩ := hm
  · exact ⟨.error e, hm.compilation_stop f⟩
  · obtain ⟨b, hb⟩ := hf a
    exact ⟨b, hm.compilation_bind hb⟩

end Run

/-- A result that is there already is a steady compilation. -/
lemma steady_compilation_pure {α : Type} (a : α) : Steady (pure a : Compilation α).run :=
  steady_pure _

/-- A report is steady as a compilation. -/
lemma Session.steady_report_compilation (e : Event) :
    Steady (Session.report e : Compilation Unit).run :=
  ⟨.ok (), (Session.returns_report e).compilation_lift⟩

/-- Compiling a path is steady. -/
lemma Selector.steady_compileReporting (path : String) : Steady (compileReporting path).run := by
  unfold compileReporting
  cases compile path with
  | error e => exact steady_pure _
  | ok s =>
    exact (Session.steady_report_compilation _).compilation_bind fun _ => steady_compilation_pure s

/-- Compiling a list of paths is steady. -/
lemma Selector.steady_compileEach (paths : List String) : Steady (compileEach paths).run := by
  induction paths with
  | nil => exact steady_compilation_pure _
  | cons path rest ih =>
    exact (steady_compileReporting path).compilation_bind fun _ =>
      ih.compilation_bind fun _ => steady_compilation_pure _

/-- Compiling the paths of a record is steady. -/
lemma SourceRecord.steady_compilePaths (r : SourceRecord) : Steady r.compilePaths.run :=
  (Selector.steady_compileEach _).compilation_bind fun _ =>
    (Selector.steady_compileEach _).compilation_bind fun _ =>
      (Selector.steady_compileEach _).compilation_bind fun _ =>
        (Selector.steady_compileReporting _).compilation_bind fun _ => steady_compilation_pure _

/-- Compiling the paths of a list of records is steady. -/
lemma SourceRecord.steady_compileAll (records : List SourceRecord) :
    Steady (compileAll records).run := by
  induction records with
  | nil => exact steady_compilation_pure _
  | cons r rest ih =>
    exact r.steady_compilePaths.compilation_bind fun _ =>
      ih.compilation_bind fun _ => steady_compilation_pure _

/-- Going on with the result of a computation or with its error is steady. -/
lemma steady_liftExcept {α : Type} (result : Except PathError α) :
    Steady (liftExcept result : Compilation α).run := by
  cases result with
  | ok a => exact steady_compilation_pure a
  | error e => exact steady_pure _

/-- Compiling the paths of a spec is steady. -/
lemma CopySpec.steady_compilePaths (s : CopySpec) : Steady s.compilePaths.run := by
  refine Run.Steady.map ?_ (Except.mapError (PathError.specValidation s.text))
  exact (steady_liftExcept _).compilation_bind fun _ =>
    (SourceRecord.steady_compileAll _).compilation_bind fun _ =>
      (Session.steady_report_compilation _).compilation_bind fun _ => steady_compilation_pure _

/-- Compiling a spec is steady. -/
lemma CopySpec.steady_compile (s : CopySpec) : Steady s.compile.run := by
  rw [compile, ExceptT.run_map]
  exact s.steady_compilePaths.map (Except.map s.pair)

/-- Compiling a list of specs is steady. -/
lemma CopySpec.steady_compileAll (specs : List CopySpec) : Steady (compileAll specs).run := by
  induction specs with
  | nil => exact steady_compilation_pure _
  | cons s rest ih =>
    exact s.steady_compile.compilation_bind fun _ =>
      ih.compilation_bind fun _ => steady_compilation_pure _

/-- Compiling copy specs comes to the same result with every faithful cache. -/
theorem Copier.steady_ofSpecs (fast : Bool) (specs : List CopySpec) :
    Steady (ofSpecs fast specs).run :=
  (CopySpec.steady_compileAll specs).compilation_bind fun _ =>
    (Session.steady_report_compilation _).compilation_bind fun _ => steady_compilation_pure _

end DocumentPath
