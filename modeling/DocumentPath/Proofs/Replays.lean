import Mathlib
import DocumentPath.Proofs.SteadyRuns

/-!
# Replays

What a copier has been used for does not show when it is used with new arguments.  Only the texts of named
replacements change over its life, and a reset sets every one of them from its own arguments, whatever
stands there (`Copier.reset_reset`).  A history of calls thus leaves a copier as its last reset would have
left it (`Copier.returns_after`), and since compiling and copying are steady, the caches that the calls
have filled do not show either (`Copier.copyWith_used_eq_fresh`).
-/

namespace DocumentPath

open Run (Returns Steady)

/-! ### Resets -/

/-- If the second of two changes forgets the first, it does so for each of a list of things. -/
lemma map_map_of_forgets {α : Type} {f g : α → α} (h : ∀ a, g (f a) = g a) (as : List α) :
    (as.map f).map g = as.map g := by
  rw [List.map_map]
  exact List.map_congr_left fun a _ => h a

/-- A reset forgets the one before. -/
lemma TextReplacement.reset_reset (r : TextReplacement) (a b : Arguments) :
    (r.reset a).reset b = r.reset b := by
  obtain ⟨name, fallback, text⟩ := r
  cases name with
  | none => rfl
  | some name => rfl

/-- A reset of a transform forgets the one before. -/
lemma Transform.reset_reset (f : Transform) (a b : Arguments) :
    (f.reset a).reset b = f.reset b := by
  cases f with
  | replaceText r => exact congrArg replaceText (r.reset_reset a b)
  | convert | function => rfl

/-- A reset of a record forgets the one before. -/
lemma CompiledRecord.reset_reset (r : CompiledRecord) (a b : Arguments) :
    (r.reset a).reset b = r.reset b :=
  congrArg (fun transforms => { r with transforms }) <|
    map_map_of_forgets (fun e => congrArg (Prod.mk e.1) (e.2.reset_reset a b)) r.transforms

/-- A reset of a spec forgets the one before. -/
lemma CompiledCopySpec.reset_reset (s : CompiledCopySpec) (a b : Arguments) :
    (s.reset a).reset b = s.reset b :=
  congrArg (fun records => { s with records }) <|
    map_map_of_forgets (fun r => r.reset_reset a b) s.records

namespace Copier

/-- A reset of a copier forgets the one before. -/
theorem reset_reset (c : Copier) (a b : Arguments) : (c.reset a).reset b = c.reset b :=
  congrArg (fun specs => { c with specs }) <|
    map_map_of_forgets (fun s => s.reset_reset a b) c.specs

/-- Copying with arguments forgets a reset before it. -/
lemma copyWith_reset (c : Copier) (a b : Arguments) : (c.reset a).copyWith b = c.copyWith b := by
  unfold copyWith
  rw [reset_reset]

/-! ### Histories -/

/-- A call on a copier. -/
inductive Call where
  | reset (arguments : Arguments)
  | copy (source t : Tree)
  | copyWith (arguments : Arguments) (source t : Tree)

/-- The arguments that a call sets. -/
def Call.arguments? : Call → Option Arguments
  | .reset arguments | .copyWith arguments _ _ => some arguments
  | .copy _ _ => none

/-- The copier after a call, whether the call succeeds or fails. -/
def call (c : Copier) : Call → Run Copier
  | .reset arguments => return c.reset arguments
  | .copy source t => do
    let _ ← c.copy source t
    return c
  | .copyWith arguments source t => do
    let (_, c) ← c.copyWith arguments source t
    return c

/-- The copier after a sequence of calls. -/
def after (c : Copier) : List Call → Run Copier
  | [] => return c
  | call :: rest => do
    let c ← c.call call
    c.after rest

/-- A copier that is built from specs and goes through a sequence of calls. -/
def used (fast : Bool) (specs : List CopySpec) (calls : List Call) : Compilation Copier := do
  let c ← ofSpecs fast specs
  c.after calls

/-- The arguments set last in a sequence of calls. -/
def lastArguments : List Call → Option Arguments
  | [] => none
  | call :: rest => (lastArguments rest).or call.arguments?

/-- The copier as arguments leave it, if there are any. -/
def resetBy (c : Copier) (arguments : Option Arguments) : Copier := arguments.elim c c.reset

/-- Of two resets that may be left out the last one made counts. -/
lemma resetBy_resetBy (c : Copier) (first second : Option Arguments) :
    (c.resetBy first).resetBy second = c.resetBy (second.or first) := by
  cases second with
  | none => rfl
  | some b =>
    cases first with
    | none => rfl
    | some a => exact c.reset_reset a b

/-- Copying with arguments forgets a reset before it, if there was one. -/
lemma copyWith_resetBy (c : Copier) (first : Option Arguments) (b : Arguments) :
    (c.resetBy first).copyWith b = c.copyWith b := by
  cases first with
  | none => rfl
  | some a => exact c.copyWith_reset a b

/-- A call leaves the copier as the arguments of the call do. -/
lemma returns_call (c : Copier) (call : Call) :
    Returns (c.call call) (c.resetBy call.arguments?) := by
  cases call with
  | reset arguments => exact Run.returns_pure _
  | copy source t =>
    obtain ⟨o, ho⟩ := c.steady_copy source t
    exact ho.bind (Run.returns_pure c)
  | copyWith arguments source t =>
    obtain ⟨o, ho⟩ := (c.reset arguments).steady_copy source t
    exact (ho.bind (Run.returns_pure (o, c.reset arguments))).bind (Run.returns_pure _)

/-- A sequence of calls leaves a copier as the last arguments would have left it. -/
theorem returns_after (c : Copier) (calls : List Call) :
    Returns (c.after calls) (c.resetBy (lastArguments calls)) := by
  induction calls generalizing c with
  | nil => exact Run.returns_pure c
  | cons call rest ih =>
    rw [lastArguments, ← resetBy_resetBy]
    exact (c.returns_call call).bind (ih _)

/-! ### Replays -/

/-- A copier that has been used comes to the same result as one that is built anew from the same specs, and
is then the same copier.  Once its transforms have been reset, it copies with the arguments set last. -/
theorem copyWith_used_eq_fresh (fast : Bool) (specs : List CopySpec) (calls : List Call)
    (source t : Tree) {σ σ' : Session} (hσ : σ.cache.Faithful) (hσ' : σ'.cache.Faithful) :
    (∀ arguments : Arguments,
      ((do (← used fast specs calls).copyWith arguments source t :
          Compilation (Outcome PathError × Copier)).run.run σ).1
        = ((do (← ofSpecs fast specs).copyWith arguments source t :
          Compilation (Outcome PathError × Copier)).run.run σ').1) ∧
    ∀ arguments : Arguments, lastArguments calls = some arguments →
      ((do (← used fast specs calls).copy source t : Compilation (Outcome PathError)).run.run σ).1
        = ((do return (← (← ofSpecs fast specs).copyWith arguments source t).1 :
          Compilation (Outcome PathError)).run.run σ').1 := by
  obtain ⟨built, hbuilt⟩ := steady_ofSpecs fast specs
  cases built with
  | error e =>
    have hused : Returns (used fast specs calls).run (.error e) := hbuilt.compilation_stop _
    refine ⟨fun arguments => ?_, fun arguments _ => ?_⟩
    · exact (hused.compilation_stop _ σ hσ).1.trans (hbuilt.compilation_stop _ σ' hσ').1.symm
    · exact (hused.compilation_stop _ σ hσ).1.trans (hbuilt.compilation_stop _ σ' hσ').1.symm
  | ok c =>
    have hused : Returns (used fast specs calls).run (.ok (c.resetBy (lastArguments calls))) :=
      hbuilt.compilation_bind (c.returns_after calls).compilation_lift
    refine ⟨fun arguments => ?_, fun arguments hlast => ?_⟩
    · obtain ⟨r, hr⟩ := c.steady_copyWith arguments source t
      have hr' : Returns ((c.resetBy (lastArguments calls)).copyWith arguments source t) r := by
        rwa [copyWith_resetBy]
      exact (hused.compilation_bind hr'.compilation_lift σ hσ).1.trans
        (hbuilt.compilation_bind hr.compilation_lift σ' hσ').1.symm
    · obtain ⟨o, ho⟩ := (c.reset arguments).steady_copy source t
      have ho' : Returns ((c.resetBy (lastArguments calls)).copy source t) o := by
        rwa [hlast]
      have hwith : Returns (c.copyWith arguments source t) (o, c.reset arguments) :=
        ho.bind (Run.returns_pure _)
      have hfresh : Returns (do return (← (← ofSpecs fast specs).copyWith arguments source t).1 :
          Compilation (Outcome PathError)).run (.ok o) :=
        hbuilt.compilation_bind
          (hwith.compilation_lift.compilation_bind (f := fun r => pure r.1) (Run.returns_pure _))
      exact (hused.compilation_bind ho'.compilation_lift σ hσ).1.trans (hfresh σ' hσ').1.symm

/-- A copier that sets the text at `/a` has been reset with a null argument and has then failed to copy into
a number.  It writes the default when the argument is missing, as a new copier does, and with no arguments
of its own it writes null. -/
theorem copyWith_used_eq_fresh_null_argument : ∃ (specs : List CopySpec) (calls : List Call)
    (source : Tree) (last : Arguments) (σ : Session),
    σ.cache.Faithful ∧ lastArguments calls = some last ∧
    ((do (← used true specs calls).copyWith (fun _ => none) source (.map []) :
        Compilation (Outcome PathError × Copier)).run.run σ).1
      = ((do (← ofSpecs true specs).copyWith (fun _ => none) source (.map []) :
        Compilation (Outcome PathError × Copier)).run.run σ).1 ∧
    ((do (← used true specs calls).copy source (.map []) :
        Compilation (Outcome PathError)).run.run σ).1
      = ((do return (← (← ofSpecs true specs).copyWith last source (.map [])).1 :
        Compilation (Outcome PathError)).run.run σ).1 ∧
    ((do return (← (← used true specs calls).copyWith (fun _ => none) source (.map [])).1.tree :
        Compilation Tree).run.run σ).1.toOption = some (.map [("a", .text "d")]) ∧
    ((do return (← (← used true specs calls).copy source (.map [])).tree :
        Compilation Tree).run.run σ).1.toOption = some (.map [("a", .null)]) := by
  have hσ : (Session.ofCapacity 1).cache.Faithful := Cache.faithful_ofCapacity 1
  have hreplay := copyWith_used_eq_fresh true
    [⟨"", [⟨"", none, [], [], [("/a", .replaceText ⟨some "n", some "d", some "d"⟩)]⟩]⟩]
    [.reset fun _ => some .null, .copy (.map [("a", .text "x")]) (.number (.int 1))]
    (.map [("a", .text "x")]) (.map []) hσ hσ
  exact ⟨_, _, _, fun _ => some .null, _, hσ, rfl, hreplay.1 _, hreplay.2 _ rfl, rfl, rfl⟩

end Copier

end DocumentPath
