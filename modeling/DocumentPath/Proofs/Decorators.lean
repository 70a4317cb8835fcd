import Mathlib
import DocumentPath.Builder.Decorator
import DocumentPath.Copier.Decorator
import DocumentPath.Proofs.Replays

/-!
# Decorated engines run as paired ones

A decorated engine keeps the compiled paths of its specs in lists of their own and zips them with the specs
in every run; a paired engine holds everything declared beside its compiled path from the beginning.  Both
are the same: the paired copier of decorated specs is the one that is compiled from them
(`DecoratedCopier.paired_ofSpecs`), and once all paths have been compiled a run of the decorated copier is a
run of the paired one and leaves the decorators as they are (`DecoratedCopier.Verified.copy_eq`).  The same
holds of builders.

The loops over decorators are taken apart once for all (`Run.updateEach_eq`, `Built.updateEach_eq`); the rest
goes from records and entries up to engines.
-/

namespace DocumentPath

/-! ### Loops -/

/-- What is related to an image of each of a list of things is related to the images one by one. -/
lemma forall₂_filterMap {α β γ : Type} {f : β → Option γ} {R : α → γ → Prop} {as : List α} {bs : List β}
    (h : List.Forall₂ (fun a b => ∃ c, f b = some c ∧ R a c) as bs) :
    List.Forall₂ R as (bs.filterMap f) := by
  induction h with
  | nil => exact .nil
  | cons hab _ ih =>
    obtain ⟨c, hc, hac⟩ := hab
    rw [List.filterMap_cons_some hc]
    exact .cons hac ih

namespace Run

variable {α β ε : Type}

/-- A run over images is a run over what they are images of. -/
lemma each_map (f : β → Tree → Run (Outcome ε)) (g : α → β) (as : List α) (t : Tree) :
    each f (as.map g) t = each (fun a => f (g a)) as t := by
  induction as generalizing t with
  | nil => rfl
  | cons a rest ih => simp only [List.map_cons, each, ih]

/-- A run of changes that do not look at the session is a sequence of changes. -/
lemma each_pure (f : α → Tree → Outcome ε) (as : List α) (t : Tree) :
    each (fun a t => pure (f a t)) as t = pure (.sequence t (as.map f)) := by
  induction as generalizing t with
  | nil => rfl
  | cons a rest ih =>
    rw [each, pure_bind, List.map_cons, Outcome.sequence_cons, Outcome.andThen]
    cases (f a t).error with
    | some e => rfl
    | none => exact ih _

/-- If every change leaves its thing as it is and is the change of something that stands for the thing, then
the run leaves all things as they are and is the run over what stands for them. -/
lemma updateEach_eq {f : α → Tree → Run (Outcome ε × α)} {g : β → Tree → Run (Outcome ε)}
    {as : List α} {bs : List β}
    (h : List.Forall₂ (fun a b => ∀ t, f a t = (fun o => (o, a)) <$> g b t) as bs) (t : Tree) :
    updateEach f as t = (fun o => (o, as)) <$> each g bs t := by
  induction h generalizing t with
  | nil => rfl
  | @cons a b as bs hab _ ih =>
    rw [updateEach, each, hab, map_bind, bind_map_left]
    refine bind_congr fun o => ?_
    dsimp only
    cases o.error with
    | some e => exact (map_pure _ _).symm
    | none =>
      rw [ih, bind_map_left]
      rfl

/-- The report of an operation leaves the image of its result. -/
lemma asOperation_map (component : Component) (operation : String) (specs : ℕ)
    (error? : β → Option PathError) (g : α → β) (body : Run α) :
    asOperation component operation specs error? (g <$> body)
      = g <$> asOperation component operation specs (error? ∘ g) body := by
  unfold asOperation
  rw [map_bind]
  refine bind_congr fun _ => ?_
  rw [map_bind, bind_map_left]
  refine bind_congr fun a => ?_
  cases h : error? (g a) with
  | some e => simp only [Function.comp_apply, h, map_bind, map_pure]
  | none => simp only [Function.comp_apply, h, map_bind, map_pure]

end Run

namespace Built

variable {α β : Type}

/-- A run over images is a run over what they are images of. -/
lemma each_map (f : β → Tree → Run Built) (g : α → β) (as : List α) (t : Tree) :
    each f (as.map g) t = each (fun a => f (g a)) as t := by
  induction as generalizing t with
  | nil => rfl
  | cons a rest ih => simp only [List.map_cons, each, ih]

/-- If every part of a run leaves its thing as it is and is a part for something that stands for the thing,
then the run leaves all things as they are and is the run over what stands for them. -/
lemma updateEach_eq {f : α → Tree → Run (Built × α)} {g : β → Tree → Run Built}
    {as : List α} {bs : List β}
    (h : List.Forall₂ (fun a b => ∀ t, f a t = (fun o => (o, a)) <$> g b t) as bs) (t : Tree) :
    updateEach f as t = (fun b => (b, as)) <$> each g bs t := by
  induction h generalizing t with
  | nil => rfl
  | @cons a b as bs hab _ ih =>
    rw [updateEach, each, hab, map_bind, bind_map_left]
    refine bind_congr fun built => ?_
    dsimp only
    cases built.outcome.error with
    | some e => exact (map_pure _ _).symm
    | none =>
      rw [ih, bind_map_left, map_bind]
      rfl

end Built

/-! ### Copiers -/

namespace SourceRecord

variable (r : SourceRecord) (p : RecordPaths)

/-- Zipping the includes with their selectors comes to what the pairing has. -/
lemma copyIncludes_eq (fast : Bool) (value t : Tree) :
    r.copyIncludes p fast value t = (r.pair p).copyIncludes fast value t := by
  rw [copyIncludes, CompiledRecord.copyIncludes, pair, List.map_map]
  rfl

/-- Zipping the transforms with their selectors comes to what the pairing has. -/
lemma transform_eq (t : Tree) : r.transform p t = (r.pair p).transform t := by
  rw [transform, CompiledRecord.transform, pair, List.map_map]
  rfl

/-- A match is copied as by the paired record. -/
lemma copyMatch_eq (fast : Bool) (value t : Tree) :
    r.copyMatch p fast value t = (r.pair p).copyMatch fast value t := by
  unfold copyMatch CompiledRecord.copyMatch
  simp only [copyIncludes_eq, transform_eq]
  rfl

/-- A record is copied as the paired one. -/
lemma copy_eq (fast : Bool) (source t : Tree) :
    r.copy fast source p t = (r.pair p).copy fast source t := by
  have hmatch : r.copyMatch p fast = (r.pair p).copyMatch fast :=
    funext fun value => funext fun t => r.copyMatch_eq p fast value t
  rw [copy, hmatch]
  rfl

end SourceRecord

/-- The records are copied one by one as the paired ones. -/
lemma CopySpec.each_zip_records (s : CopySpec) (p : CopyPaths) (fast : Bool) (source t : Tree) :
    Run.each (fun e => e.1.copy fast source e.2) (s.records.zip p.records) t
      = Run.each (CompiledRecord.copy fast source) (s.pair p).records t := by
  rw [pair, Run.each_map]
  congr 1
  funext e
  exact funext fun t => e.1.copy_eq e.2 fast source t

namespace CopyDecorator

variable {d : CopyDecorator} {paths : CopyPaths}

/-- A spec that has been compiled has a pairing. -/
lemma paired?_of_memo (h : d.memo = some (.ok paths)) : d.paired? = some (d.spec.pair paths) := by
  rw [paired?, h]

/-- What has been compiled is kept. -/
lemma compiled_of_memo (h : d.memo = some (.ok paths)) : d.compiled = pure (.ok paths, d) := by
  rw [compiled, h]

/-- The records of a spec that has been compiled are zipped with what is kept. -/
lemma records_of_memo (h : d.memo = some (.ok paths)) :
    d.records = pure (.ok (d.spec.records.zip paths.records), d) := by
  rw [records, compiled_of_memo h, pure_bind]
  rfl

/-- A spec that has been compiled is run as the paired one, and stays as it is. -/
theorem copy_of_memo (h : d.memo = some (.ok paths)) (fast : Bool) (source t : Tree) :
    d.copy fast source t
      = (fun o => (o, d)) <$> (d.spec.pair paths).copy fast source t := by
  rw [copy, compiled_of_memo h, pure_bind]
  unfold CompiledCopySpec.copy
  have htarget : (d.spec.pair paths).target = paths.target := rfl
  simp only [htarget]
  generalize paths.target.openContainer t = opened
  cases opened.error with
  | some e => exact (map_pure _ _).symm
  | none =>
    cases paths.target.at? opened.tree with
    | none => exact (map_pure _ _).symm
    | some node =>
      dsimp only
      rw [records_of_memo h, pure_bind, map_bind]
      dsimp only
      rw [d.spec.each_zip_records]
      exact bind_congr fun o => (map_pure _ _).symm

end CopyDecorator

/-! ### Construction and resets -/

/-- Pairing a record that has been reset resets its pairing. -/
lemma SourceRecord.pair_reset (r : SourceRecord) (p : RecordPaths) (arguments : Arguments) :
    (r.reset arguments).pair p = (r.pair p).reset arguments := by
  simp only [pair, reset, CompiledRecord.reset, List.zip_map_left, List.map_map]
  rfl

/-- Pairing a spec that has been reset resets its pairing. -/
lemma CopySpec.pair_reset (s : CopySpec) (p : CopyPaths) (arguments : Arguments) :
    (s.reset arguments).pair p = (s.pair p).reset arguments := by
  simp only [pair, reset, CompiledCopySpec.reset, List.zip_map_left, List.map_map]
  congr 2
  funext e
  exact e.1.pair_reset e.2 arguments

/-- A reset of a record forgets the one before. -/
lemma SourceRecord.reset_reset (r : SourceRecord) (a b : Arguments) :
    (r.reset a).reset b = r.reset b :=
  congrArg (fun transforms => { r with transforms }) <|
    map_map_of_forgets (fun e => congrArg (Prod.mk e.1) (e.2.reset_reset a b)) r.transforms

/-- A reset of a spec forgets the one before. -/
lemma CopySpec.reset_reset (s : CopySpec) (a b : Arguments) : (s.reset a).reset b = s.reset b :=
  congrArg (fun records => { s with records }) <|
    map_map_of_forgets (fun r => r.reset_reset a b) s.records

namespace CopyDecorator

/-- A decorator that is asked for the first time compiles its paths and keeps them. -/
lemma verify_ofSpec (s : CopySpec) : verify { spec := s }
    = (fun paths => { spec := s, memo := some (.ok paths) }) <$> s.compilePaths := by
  have hcompiled : compiled { spec := s }
      = (fun result => (result, { spec := s, memo := some result })) <$> s.compilePaths.run := by
    rw [map_eq_pure_bind]
    rfl
  refine ExceptT.ext ?_
  rw [verify, hcompiled, ExceptT.run_bind, ExceptT.run_map, ExceptT.run_monadLift]
  simp only [monadLift, bind_map_left, Functor.map_map]
  rw [map_eq_pure_bind]
  refine bind_congr fun result => ?_
  cases result <;> rfl

/-- A reset of a decorator resets its pairing. -/
lemma paired?_reset (d : CopyDecorator) (arguments : Arguments) :
    (d.reset arguments).paired? = d.paired?.map (CompiledCopySpec.reset arguments) := by
  obtain ⟨s, _ | _ | paths⟩ := d
  · rfl
  · rfl
  · exact congrArg some (s.pair_reset paths arguments)

end CopyDecorator

/-- What comes after a call finds the copier as the arguments of the call leave it. -/
lemma Copier.call_bind {β : Type} (c : Copier) (call : Call) (f : Copier → Run β) :
    (c.call call >>= f) = c.call call >>= fun _ => f (c.resetBy call.arguments?) := by
  cases call with
  | reset arguments => rfl
  | copy source t =>
    simp only [call, bind_assoc, pure_bind]
    rfl
  | copyWith arguments source t =>
    simp only [Copier.call, Copier.copyWith, bind_assoc, pure_bind]
    rfl

/-- A sequence of calls ends with the copier as the last arguments leave it. -/
lemma Copier.after_eq (c : Copier) (calls : List Call) :
    c.after calls = (fun _ => c.resetBy (lastArguments calls)) <$> c.after calls := by
  induction calls generalizing c with
  | nil => rfl
  | cons call rest ih =>
    rw [after, call_bind, ih, map_bind, lastArguments, ← resetBy_resetBy]
    simp only [Functor.map_map]

/-- Compiling the decorated specs comes to as many specs as compiling them in pairs, and to the same. -/
lemma CopySpec.verifyAll_eq_compileAll (specs : List CopySpec) :
    (fun ds => (ds.length, ds.filterMap CopyDecorator.paired?))
        <$> CopyDecorator.verifyAll (specs.map fun s => { spec := s })
      = (fun cs => (cs.length, cs)) <$> compileAll specs := by
  induction specs with
  | nil => rfl
  | cons s rest ih =>
    rw [List.map_cons, CopyDecorator.verifyAll, compileAll, compile, CopyDecorator.verify_ofSpec]
    simp only [bind_map_left, map_bind, map_pure]
    refine bind_congr fun paths => ?_
    -- one more decorator is one more spec, since it has just been compiled
    have hstep := congrArg (Functor.map fun r : ℕ × List CompiledCopySpec =>
      (r.1 + 1, s.pair paths :: r.2)) ih
    simp only [Functor.map_map] at hstep
    simp only [map_eq_pure_bind] at hstep
    exact hstep

namespace DecoratedCopier

/-- The paired copier of the decorated specs is the copier that is compiled from the specs. -/
theorem paired_ofSpecs (fast : Bool) (specs : List CopySpec) :
    paired <$> ofSpecs fast specs = Copier.ofSpecs fast specs := by
  have hspecs := congrArg (· >>= fun r : ℕ × List CompiledCopySpec => do
    Session.report (.copierReady r.1)
    return (⟨fast, r.2⟩ : Copier)) (CopySpec.verifyAll_eq_compileAll specs)
  simp only [bind_map_left] at hspecs
  rw [ofSpecs, map_bind]
  simp only [map_bind, map_pure]
  exact hspecs

/-- All specs of the copier have been compiled. -/
def Verified (c : DecoratedCopier) : Prop := ∀ d ∈ c.specs, ∃ paths, d.memo = some (.ok paths)

/-- The specs of the paired copier are one by one the pairings of those of the copier. -/
lemma Verified.forall₂_paired {c : DecoratedCopier} (h : c.Verified)
    {R : CopyDecorator → CompiledCopySpec → Prop}
    (hR : ∀ d paths, d.memo = some (.ok paths) → R d (d.spec.pair paths)) :
    List.Forall₂ R c.specs c.paired.specs := by
  refine forall₂_filterMap (List.forall₂_same.mpr fun d hd => ?_)
  obtain ⟨paths, hmemo⟩ := h d hd
  exact ⟨_, d.paired?_of_memo hmemo, hR d paths hmemo⟩

/-- The paired copier has as many specs. -/
lemma Verified.size_paired {c : DecoratedCopier} (h : c.Verified) : c.paired.size = c.size :=
  (h.forall₂_paired (R := fun _ _ => True) fun _ _ _ => trivial).length_eq.symm

/-- A reset of a copier resets the paired one. -/
lemma paired_reset (c : DecoratedCopier) (arguments : Arguments) :
    (c.reset arguments).paired = c.paired.reset arguments := by
  unfold paired reset Copier.reset
  rw [List.filterMap_map, List.map_filterMap]
  congr 2
  funext d
  exact d.paired?_reset arguments

/-- What has been compiled stays compiled over a reset. -/
lemma Verified.reset {c : DecoratedCopier} (h : c.Verified) (arguments : Arguments) :
    (c.reset arguments).Verified := by
  intro d hd
  obtain ⟨d', hd', rfl⟩ := List.mem_map.mp hd
  exact h d' hd'

/-- A copier of compiled specs runs as the paired one, and stays as it is. -/
theorem Verified.copy_eq {c : DecoratedCopier} (h : c.Verified) (source t : Tree) :
    c.copy source t = (fun o => (o, c)) <$> c.paired.copy source t := by
  have hspecs : List.Forall₂ (fun d s => ∀ t, d.copy c.fast source t
      = (fun o => (o, d)) <$> CompiledCopySpec.copy c.fast source s t) c.specs c.paired.specs :=
    h.forall₂_paired fun d _ hmemo => d.copy_of_memo hmemo c.fast source
  have hall : c.copyAll source t = (fun o => (o, c)) <$> c.paired.copyAll source t := by
    rw [copyAll, Run.updateEach_eq hspecs, bind_map_left]
    rfl
  rw [copy, hall, Run.asOperation_map, ← h.size_paired]
  rfl

/-- A copier of compiled specs that copies with arguments ends as they leave it. -/
theorem Verified.copyWith_eq {c : DecoratedCopier} (h : c.Verified) (arguments : Arguments)
    (source t : Tree) : c.copyWith arguments source t
      = (fun r => (r.1, c.reset arguments)) <$> c.paired.copyWith arguments source t := by
  rw [copyWith, (h.reset arguments).copy_eq, paired_reset, Copier.copyWith]
  simp only [map_bind, map_pure]
  rfl

/-! ### Histories -/

/-- The copier after a call, whether the call succeeds or fails. -/
def call (c : DecoratedCopier) : Copier.Call → Run DecoratedCopier
  | .reset arguments => return c.reset arguments
  | .copy source t => do
    let (_, c) ← c.copy source t
    return c
  | .copyWith arguments source t => do
    let (_, c) ← c.copyWith arguments source t
    return c

/-- The copier after a sequence of calls. -/
def after (c : DecoratedCopier) : List Copier.Call → Run DecoratedCopier
  | [] => return c
  | call :: rest => do
    let c ← c.call call
    c.after rest

/-- The copier as arguments leave it, if there are any. -/
def resetBy (c : DecoratedCopier) (arguments : Option Arguments) : DecoratedCopier :=
  arguments.elim c c.reset

/-- What has been compiled stays compiled over a reset, if there was one. -/
lemma Verified.resetBy {c : DecoratedCopier} (h : c.Verified) (arguments : Option Arguments) :
    (c.resetBy arguments).Verified := by
  cases arguments with
  | none => exact h
  | some arguments => exact h.reset arguments

/-- A reset of a copier forgets the one before. -/
lemma reset_reset (c : DecoratedCopier) (a b : Arguments) : (c.reset a).reset b = c.reset b :=
  congrArg (fun specs => { c with specs }) <| map_map_of_forgets
    (fun d => congrArg (CopyDecorator.mk · d.memo) (d.spec.reset_reset a b)) c.specs

/-- Of two resets that may be left out the last one made counts. -/
lemma resetBy_resetBy (c : DecoratedCopier) (first second : Option Arguments) :
    (c.resetBy first).resetBy second = c.resetBy (second.or first) := by
  cases second with
  | none => rfl
  | some b =>
    cases first with
    | none => rfl
    | some a => exact c.reset_reset a b

/-- A reset of a copier, if there was one, resets the paired one. -/
lemma paired_resetBy (c : DecoratedCopier) (arguments : Option Arguments) :
    (c.resetBy arguments).paired = c.paired.resetBy arguments := by
  cases arguments with
  | none => rfl
  | some arguments => exact c.paired_reset arguments

/-- A call on a copier of compiled specs is a call on the paired one, and only resets its transforms. -/
lemma Verified.call_eq {c : DecoratedCopier} (h : c.Verified) (call : Copier.Call) :
    c.call call = (fun _ => c.resetBy call.arguments?) <$> c.paired.call call := by
  cases call with
  | reset arguments => rfl
  | copy source t =>
    rw [DecoratedCopier.call, h.copy_eq, bind_map_left, Copier.call, map_bind]
    rfl
  | copyWith arguments source t =>
    rw [DecoratedCopier.call, h.copyWith_eq, bind_map_left, Copier.call, map_bind]
    rfl

/-- A sequence of calls on a copier of compiled specs is one on the paired copier, and leaves the copier as
the last arguments do. -/
theorem Verified.after_eq {c : DecoratedCopier} (h : c.Verified) (calls : List Copier.Call) :
    c.after calls
      = (fun _ => c.resetBy (Copier.lastArguments calls)) <$> c.paired.after calls := by
  induction calls generalizing c with
  | nil => rfl
  | cons call rest ih =>
    have hreset : (c.resetBy call.arguments?).Verified := h.resetBy call.arguments?
    rw [after, h.call_eq, bind_map_left, Copier.after, map_bind, Copier.lastArguments,
      ← resetBy_resetBy]
    refine (bind_congr fun _ => ih hreset).trans ?_
    rw [paired_resetBy]
    symm
    exact c.paired.call_bind call _

/-- A sequence of calls leaves copiers that correspond. -/
theorem Verified.paired_after {c : DecoratedCopier} (h : c.Verified) (calls : List Copier.Call) :
    paired <$> c.after calls = c.paired.after calls := by
  rw [h.after_eq, Functor.map_map, paired_resetBy]
  exact (c.paired.after_eq calls).symm

/-- A copy is one by the paired copier and leaves the copier as it is, or as the arguments of the copy leave
it. -/
structure RunsAsPaired (c : DecoratedCopier) : Prop where
  copy : ∀ source t, c.copy source t = (fun o => (o, c)) <$> c.paired.copy source t
  copyWith : ∀ arguments source t, c.copyWith arguments source t
    = (fun r => (r.1, c.reset arguments)) <$> c.paired.copyWith arguments source t

/-- A copier of compiled specs runs as the paired one. -/
theorem Verified.runsAsPaired {c : DecoratedCopier} (h : c.Verified) : c.RunsAsPaired :=
  ⟨h.copy_eq, h.copyWith_eq⟩

end DecoratedCopier

/-! ### Builders -/

namespace BuildSpec

variable (s : BuildSpec) (p : BuildPaths)

/-- The pairing has a literal if the spec has one, provided that each has a pointer. -/
lemma isEmpty_literals_pair (hlength : s.literals.length = p.literals.length) :
    (s.pair p).literals.isEmpty = s.literals.isEmpty := by
  have hsame : (s.pair p).literals.length = s.literals.length := by
    rw [pair, List.length_map, List.length_zip, ← hlength, Nat.min_self]
  rw [Bool.eq_iff_iff, List.isEmpty_iff_length_eq_zero, List.isEmpty_iff_length_eq_zero, hsame]

/-- The looked-up values are placed one by one as the paired ones. -/
lemma each_zip_puts (lookup : Lookup) (t : Tree) :
    Built.each (fun e => s.placePut lookup e.1 e.2) (s.puts.zip p.puts) t
      = CompiledBuildSpec.placePuts lookup (s.pair p).puts t := by
  rw [CompiledBuildSpec.placePuts, pair, Built.each_map]
  rfl

end BuildSpec

namespace BuildDecorator

variable {d : BuildDecorator} {paths : BuildPaths}

/-- A spec that has been compiled has a pairing. -/
lemma paired?_of_memo (h : d.memo = some (.ok paths)) : d.paired? = some (d.spec.pair paths) := by
  rw [paired?, h]

/-- What has been compiled is kept. -/
lemma compiled_of_memo (h : d.memo = some (.ok paths)) : d.compiled = (.ok paths, d) := by
  rw [compiled, h]

/-- The literals of a spec that has been compiled are zipped with what is kept. -/
lemma literals_of_memo (h : d.memo = some (.ok paths)) :
    d.literals = (.ok (d.spec.literals.zip paths.literals), d) := by
  rw [literals, compiled_of_memo h]
  rfl

/-- The entries of a spec that has been compiled are zipped with what is kept. -/
lemma puts_of_memo (h : d.memo = some (.ok paths)) :
    d.puts = (.ok (d.spec.puts.zip paths.puts), d) := by
  rw [puts, compiled_of_memo h]
  rfl

/-- The literals of a spec that has been compiled are placed as those of the paired one. -/
lemma placeLiterals_of_memo (h : d.memo = some (.ok paths))
    (hlength : d.spec.literals.length = paths.literals.length) (t : Tree) :
    d.placeLiterals t = pure ((d.spec.pair paths).placeLiterals t, d) := by
  unfold placeLiterals CompiledBuildSpec.placeLiterals
  rw [d.spec.isEmpty_literals_pair paths hlength]
  split
  · rfl
  · rw [compiled_of_memo h]
    unfold CompiledBuildSpec.atTarget
    have htarget : (d.spec.pair paths).target = paths.target := rfl
    simp only [htarget]
    generalize paths.target.openContainer t = opened
    cases opened.error with
    | some e => rfl
    | none =>
      cases paths.target.at? opened.tree with
      | none => rfl
      | some node =>
        dsimp only
        rw [literals_of_memo h, BuildSpec.pair, List.map_map]
        rfl

/-- The looked-up values of a spec that has been compiled are placed as those of the paired one. -/
lemma placeNodes_of_memo (h : d.memo = some (.ok paths)) (lookup : Lookup) (t : Tree) :
    d.placeNodes lookup t = (fun b => (b, d)) <$> (d.spec.pair paths).placeNodes lookup t := by
  rw [placeNodes, compiled_of_memo h]
  unfold CompiledBuildSpec.placeNodes
  have htarget : (d.spec.pair paths).target = paths.target := rfl
  simp only [htarget]
  generalize paths.target.openContainer t = opened
  cases opened.error with
  | some e => exact (map_pure _ _).symm
  | none =>
    cases paths.target.at? opened.tree with
    | none => exact (map_pure _ _).symm
    | some node =>
      dsimp only
      rw [puts_of_memo h, map_bind]
      dsimp only
      rw [d.spec.each_zip_puts]
      exact bind_congr fun b => (map_pure _ _).symm

end BuildDecorator

/-- A decorator that is asked for the first time compiles its paths and keeps them. -/
lemma BuildDecorator.verify_ofSpec (s : BuildSpec) : verify { spec := s }
    = s.compilePaths.map fun paths => { spec := s, memo := some (.ok paths) } := by
  unfold verify compiled
  dsimp only
  cases s.compilePaths <;> rfl

namespace DecoratedBuilder

/-- The paired builder of the decorated specs is the builder that is compiled from the specs. -/
theorem paired_ofSpecs (specs : List BuildSpec) :
    (ofSpecs specs).map paired = Builder.ofSpecs specs := by
  have hspecs : (mapUntilFault BuildDecorator.verify (specs.map fun s => { spec := s })).map
      (List.filterMap BuildDecorator.paired?) = mapUntilFault BuildSpec.compile specs := by
    induction specs with
    | nil => rfl
    | cons s rest ih =>
      rw [List.map_cons, mapUntilFault, mapUntilFault, ← ih, BuildSpec.compile,
        BuildDecorator.verify_ofSpec]
      cases s.compilePaths with
      | error e => rfl
      | ok paths =>
        cases mapUntilFault BuildDecorator.verify (rest.map fun s => { spec := s }) <;> rfl
  rw [ofSpecs, Builder.ofSpecs, ← hspecs]
  cases mapUntilFault BuildDecorator.verify (specs.map fun s => { spec := s }) <;> rfl

/-- All specs of the builder have been compiled, and each literal has a pointer. -/
def Verified (b : DecoratedBuilder) : Prop :=
  ∀ d ∈ b.specs, ∃ paths, d.memo = some (.ok paths) ∧
    d.spec.literals.length = paths.literals.length

variable {b : DecoratedBuilder}

/-- The specs of the paired builder are one by one the pairings of those of the builder. -/
lemma Verified.forall₂_paired (h : b.Verified) {R : BuildDecorator → CompiledBuildSpec → Prop}
    (hR : ∀ d paths, d.memo = some (.ok paths) → d.spec.literals.length = paths.literals.length →
      R d (d.spec.pair paths)) : List.Forall₂ R b.specs b.paired.specs := by
  refine forall₂_filterMap (List.forall₂_same.mpr fun d hd => ?_)
  obtain ⟨paths, hmemo, hlength⟩ := h d hd
  exact ⟨_, d.paired?_of_memo hmemo, hR d paths hmemo hlength⟩

/-- The paired builder has as many specs. -/
lemma Verified.size_paired (h : b.Verified) : b.paired.size = b.size :=
  (h.forall₂_paired (R := fun _ _ => True) fun _ _ _ _ => trivial).length_eq.symm

/-- A builder of compiled specs places its literals as the paired one, and stays as it is. -/
theorem Verified.buildLiterals_eq (h : b.Verified) (t : Tree) :
    b.buildLiterals t = pure (b.paired.buildLiterals t, b) := by
  have hspecs : List.Forall₂ (fun d s => ∀ t, d.placeLiterals t
      = (fun o => (o, d)) <$> (pure (CompiledBuildSpec.placeLiterals s t) : Run (Outcome PathError)))
      b.specs b.paired.specs := by
    refine h.forall₂_paired fun d paths hmemo hlength t => ?_
    rw [map_pure]
    exact d.placeLiterals_of_memo hmemo hlength t
  rw [buildLiterals, Run.updateEach_eq hspecs, Run.each_pure, map_pure, pure_bind]
  rfl

/-- A builder of compiled specs places its looked-up values as the paired one, and stays as it is. -/
theorem Verified.buildNodes_eq (h : b.Verified) (lookup : Lookup) (t : Tree) :
    b.buildNodes lookup t = (fun built => (built, b)) <$> b.paired.buildNodes lookup t := by
  have hspecs : List.Forall₂ (fun d s => ∀ t, d.placeNodes lookup t
      = (fun built => (built, d)) <$> CompiledBuildSpec.placeNodes lookup s t)
      b.specs b.paired.specs :=
    h.forall₂_paired fun d _ hmemo _ => d.placeNodes_of_memo hmemo lookup
  rw [buildNodes, Built.updateEach_eq hspecs, bind_map_left]
  rfl

/-- A builder of compiled specs builds as the paired one, and stays as it is. -/
theorem Verified.build_eq (h : b.Verified) (lookup : Lookup) (t : Tree) :
    b.build lookup t = (fun built => (built, b)) <$> b.paired.build lookup t := by
  have hall : b.buildAll lookup t = (fun built => (built, b)) <$> b.paired.buildAll lookup t := by
    rw [buildAll, h.buildLiterals_eq, pure_bind]
    unfold Builder.buildAll
    dsimp only
    cases (b.paired.buildLiterals t).error with
    | some e => exact (map_pure _ _).symm
    | none => exact h.buildNodes_eq lookup _
  rw [build, hall, Run.asOperation_map, ← h.size_paired]
  rfl

/-- Every part of a build is one by the paired builder and leaves the builder as it is. -/
structure RunsAsPaired (b : DecoratedBuilder) : Prop where
  buildLiterals : ∀ t, b.buildLiterals t = pure (b.paired.buildLiterals t, b)
  buildNodes : ∀ lookup t,
    b.buildNodes lookup t = (fun built => (built, b)) <$> b.paired.buildNodes lookup t
  build : ∀ lookup t, b.build lookup t = (fun built => (built, b)) <$> b.paired.build lookup t

/-- A builder of compiled specs runs as the paired one. -/
theorem Verified.runsAsPaired (h : b.Verified) : b.RunsAsPaired :=
  ⟨h.buildLiterals_eq, h.buildNodes_eq, h.build_eq⟩

end DecoratedBuilder

end DocumentPath
