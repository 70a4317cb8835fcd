import Mathlib
import DocumentPath.Proofs.Decorators
import DocumentPath.Proofs.ErrorKinds
import DocumentPath.Proofs.Verdicts

/-!
# Construction of engines

A copier and a builder check every path of their specs when they are constructed, and an engine that has been
constructed never finds fault with a path again (`engines_check_paths`).

An engine keeps its compiled paths in lists parallel to those of its specs and zips the two in every run.
That lists are parallel is said by `Parallel`: their zip has all of either, and what stands side by side
belongs together.  Compiling the paths of a spec gives lists that are parallel to those of the spec
(`CopySpec.HasPaths`, `BuildSpec.HasPaths`), and they stay so, and are what compiling would give again,
whatever a copier is used for (`CopySpec.DecoratedBy`).
-/

namespace DocumentPath

/-! ### Parallel lists -/

section Parallel

variable {α β γ : Type} {R : α → β → Prop} {as : List α} {bs : List β}

/-- Zipping the lists drops nothing, and what stands side by side is related. -/
structure Parallel (R : α → β → Prop) (as : List α) (bs : List β) : Prop where
  fst : (as.zip bs).map Prod.fst = as
  snd : (as.zip bs).map Prod.snd = bs
  related : ∀ e ∈ as.zip bs, R e.1 e.2

/-- Lists are parallel if they are related one by one. -/
lemma parallel_iff_forall₂ : Parallel R as bs ↔ List.Forall₂ R as bs := by
  rw [List.forall₂_iff_zip]
  constructor
  · rintro ⟨hfst, hsnd, hrelated⟩
    refine ⟨?_, fun h => hrelated _ h⟩
    rw [← congrArg List.length hfst, ← congrArg List.length hsnd, List.length_map, List.length_map]
  · rintro ⟨hlength, hrelated⟩
    exact ⟨List.map_fst_zip hlength.le, List.map_snd_zip hlength.ge, fun _ he => hrelated he⟩

/-- A relation one by one between a list and what its zip with a parallel list is turned into. -/
lemma Parallel.forall₂_map (h : Parallel R as bs) {S : α → γ → Prop} {f : α × β → γ}
    (hf : ∀ a b, R a b → S a (f (a, b))) : List.Forall₂ S as ((as.zip bs).map f) := by
  induction parallel_iff_forall₂.mp h with
  | nil => exact .nil
  | cons hab hrest ih => exact .cons (hf _ _ hab) (ih (parallel_iff_forall₂.mpr hrest))

/-- A relation that determines what stands on the right determines the parallel list. -/
lemma rightUnique_parallel (hR : Relator.RightUnique R) : Relator.RightUnique (Parallel R) :=
  fun _ _ _ h h' => hR.forall₂ (parallel_iff_forall₂.mp h) (parallel_iff_forall₂.mp h')

/-- Everything on the left has something on the right. -/
lemma Parallel.exists_right (h : Parallel R as bs) {a : α} (ha : a ∈ as) : ∃ b, R a b := by
  rw [← h.fst] at ha
  obtain ⟨e, he, rfl⟩ := List.mem_map.mp ha
  exact ⟨e.2, h.related e he⟩

/-- Everything on the right has something on the left. -/
lemma Parallel.exists_left (h : Parallel R as bs) {b : β} (hb : b ∈ bs) : ∃ a ∈ as, R a b := by
  rw [← h.snd] at hb
  obtain ⟨e, he, rfl⟩ := List.mem_map.mp hb
  exact ⟨e.1, (List.of_mem_zip he).1, h.related e he⟩

end Parallel

/-! ### Paths of copy specs -/

/-- What is wrong with a path that leads to one location. -/
def Pointer.fault? (path : String) : Option PathError := errorOf? (parse path)

/-- What is wrong with a path that may match many locations. -/
def Selector.fault? (path : String) : Option PathError := errorOf? (compile path)

/-- The paths of a record in the order in which they are checked: those of the includes in effect, the
excludes, those of the transforms, and the source. -/
def SourceRecord.paths (r : SourceRecord) : List String :=
  Entries.keys r.includes ++ (r.excludes ++ (Entries.keys r.transforms ++ [r.path]))

/-- The first fault of a spec: of its target, or else of its records. -/
def CopySpec.fault? (s : CopySpec) : Option PathError :=
  (Pointer.fault? s.target).or ((s.records.flatMap SourceRecord.paths).findSome? Selector.fault?)

/-- The lists of compiled paths are parallel to those of the record. -/
structure SourceRecord.HasPaths (r : SourceRecord) (p : RecordPaths) : Prop where
  source : Selector.compile r.path = .ok p.source
  includes : Parallel (fun e s => Selector.compile e.1 = .ok s) r.includes p.includes
  excludes : Parallel (fun path s => Selector.compile path = .ok s) r.excludes p.excludes
  transforms : Parallel (fun e s => Selector.compile e.1 = .ok s) r.transforms p.transforms

/-- The compiled paths are those of the spec, in lists parallel to those of the spec. -/
structure CopySpec.HasPaths (s : CopySpec) (p : CopyPaths) : Prop where
  target : Pointer.parse s.target = .ok p.target
  records : Parallel SourceRecord.HasPaths s.records p.records

/-! ### Compiling copy specs -/

/-- A path is compiled, or its fault is found. -/
lemma Selector.compiles_reporting (path : String) :
    Compiles (fault? path) (fun s => compile path = .ok s) (compileReporting path) := by
  unfold compileReporting
  cases h : compile path with
  | error e => exact fun _ => congrArg errorOf? h
  | ok s => exact fun _ => ⟨congrArg errorOf? h, rfl⟩

/-- Paths are compiled one by one, or the first fault of any is found. -/
lemma Selector.compiles_each (paths : List String) :
    Compiles (paths.findSome? fault?) (List.Forall₂ (fun path s => compile path = .ok s) paths)
      (compileEach paths) := by
  induction paths with
  | nil => exact .pure .nil
  | cons path rest ih =>
    rw [findSome?_cons_or]
    exact (compiles_reporting path).cons ih

/-- The paths of a record are compiled to lists parallel to those of the record. -/
lemma SourceRecord.compiles_paths (r : SourceRecord) :
    Compiles (r.paths.findSome? Selector.fault?) r.HasPaths r.compilePaths := by
  rw [paths, List.findSome?_append, List.findSome?_append, List.findSome?_append,
    findSome?_singleton]
  refine (Selector.compiles_each _).bind fun includes hincludes => ?_
  refine (Selector.compiles_each _).bind fun excludes hexcludes => ?_
  refine (Selector.compiles_each _).bind fun transforms htransforms => ?_
  refine (Selector.compiles_reporting r.path).andReturn fun source hsource => ⟨hsource, ?_, ?_, ?_⟩
  · exact parallel_iff_forall₂.mpr (List.forall₂_map_left_iff.mp hincludes)
  · exact parallel_iff_forall₂.mpr hexcludes
  · exact parallel_iff_forall₂.mpr (List.forall₂_map_left_iff.mp htransforms)

/-- The paths of records are compiled record by record. -/
lemma SourceRecord.compiles_all (records : List SourceRecord) :
    Compiles ((records.flatMap paths).findSome? Selector.fault?) (List.Forall₂ HasPaths records)
      (compileAll records) := by
  induction records with
  | nil => exact .pure .nil
  | cons r rest ih =>
    rw [List.flatMap_cons, List.findSome?_append]
    exact r.compiles_paths.cons ih

/-- The paths of a spec are compiled to lists parallel to those of the spec, or its first fault is found and
named after it. -/
theorem CopySpec.compiles_paths (s : CopySpec) :
    Compiles (s.fault?.map (PathError.specValidation s.text)) s.HasPaths s.compilePaths := by
  refine Compiles.adapt ?_ _
  refine (Compiles.lift (Pointer.parse s.target)).bind fun target htarget => ?_
  rw [← Option.or_none (o := List.findSome? _ _)]
  exact (SourceRecord.compiles_all s.records).bind fun records hrecords =>
    (Compiles.report _).andReturn fun _ _ => ⟨htarget, parallel_iff_forall₂.mpr hrecords⟩

/-- A spec has no fault if its target leads to one location and its other paths may be compiled. -/
lemma CopySpec.fault?_eq_none_iff {s : CopySpec} :
    s.fault? = none ↔ (∃ p, Pointer.parse s.target = .ok p) ∧
      ∀ r ∈ s.records, ∀ path ∈ r.paths, ∃ selector, Selector.compile path = .ok selector := by
  simp only [fault?, Option.or_eq_none_iff, Pointer.fault?, errorOf?_eq_none_iff,
    List.findSome?_eq_none_iff, List.mem_flatMap, Selector.fault?]
  exact and_congr_right fun _ =>
    ⟨fun h r hr path hpath => h path ⟨r, hr, hpath⟩, fun h path ⟨r, hr, hpath⟩ => h r hr path hpath⟩

/-! ### Compiling again -/

/-- A path determines the selector that it is compiled to. -/
lemma Selector.rightUnique_compile {α : Type} (path : α → String) :
    Relator.RightUnique fun a s => compile (path a) = .ok s :=
  fun _ _ _ h h' => Except.ok.inj (h.symm.trans h')

namespace SourceRecord

/-- A record determines its compiled paths. -/
lemma rightUnique_hasPaths : Relator.RightUnique HasPaths := by
  rintro r ⟨source, includes, excludes, transforms⟩ p' h h'
  obtain rfl : source = p'.source := Except.ok.inj (h.source.symm.trans h'.source)
  obtain rfl : includes = p'.includes :=
    rightUnique_parallel (Selector.rightUnique_compile _) h.includes h'.includes
  obtain rfl : excludes = p'.excludes :=
    rightUnique_parallel (Selector.rightUnique_compile id) h.excludes h'.excludes
  obtain rfl : transforms = p'.transforms :=
    rightUnique_parallel (Selector.rightUnique_compile _) h.transforms h'.transforms
  rfl

/-- Every path of a record with compiled paths may be compiled. -/
lemma HasPaths.exists_compile {r : SourceRecord} {p : RecordPaths} (h : r.HasPaths p) {path : String}
    (hpath : path ∈ r.paths) : ∃ s, Selector.compile path = .ok s := by
  simp only [paths, List.mem_append, List.mem_singleton] at hpath
  rcases hpath with hpath | hpath | hpath | rfl
  · obtain ⟨e, he, rfl⟩ := List.mem_map.mp hpath
    exact h.includes.exists_right he
  · exact h.excludes.exists_right hpath
  · obtain ⟨e, he, rfl⟩ := List.mem_map.mp hpath
    exact h.transforms.exists_right he
  · exact ⟨_, h.source⟩

end SourceRecord

namespace CopySpec

/-- A spec determines its compiled paths. -/
lemma rightUnique_hasPaths : Relator.RightUnique HasPaths := by
  rintro s ⟨target, records⟩ p' h h'
  obtain rfl : target = p'.target := Except.ok.inj (h.target.symm.trans h'.target)
  obtain rfl : records = p'.records :=
    rightUnique_parallel SourceRecord.rightUnique_hasPaths h.records h'.records
  rfl

/-- A spec with compiled paths has no fault. -/
lemma HasPaths.fault?_eq_none {s : CopySpec} {p : CopyPaths} (h : s.HasPaths p) : s.fault? = none := by
  refine fault?_eq_none_iff.mpr ⟨⟨_, h.target⟩, fun r hr path hpath => ?_⟩
  obtain ⟨paths, hpaths⟩ := h.records.exists_right hr
  exact hpaths.exists_compile hpath

/-- The paths of a spec are compiled to the same lists whenever they are. -/
theorem HasPaths.compilePaths_eq {s : CopySpec} {p : CopyPaths} (h : s.HasPaths p) (σ : Session) :
    (s.compilePaths.run.run σ).1 = .ok p := by
  have hverdict := s.compiles_paths σ
  obtain ⟨p', hp'⟩ := hverdict.exists_ok_iff.mpr (by rw [h.fault?_eq_none, Option.map_none])
  rw [hp', rightUnique_hasPaths (hverdict.of_ok hp') h]

end CopySpec

/-! ### Resets -/

/-- The transform as it is after a reset, if there was one. -/
def Transform.resetBy (f : Transform) (arguments : Option Arguments) : Transform :=
  arguments.elim f f.reset

/-- The spec as it is after a reset of its transforms, if there was one. -/
def CopySpec.resetBy (s : CopySpec) (arguments : Option Arguments) : CopySpec :=
  arguments.elim s fun a => s.reset a

/-- A reset changes nothing about the paths of a record. -/
lemma SourceRecord.hasPaths_reset_iff {r : SourceRecord} {p : RecordPaths} {arguments : Arguments} :
    (r.reset arguments).HasPaths p ↔ r.HasPaths p := by
  have htransforms : Parallel (fun (e : String × Transform) s => Selector.compile e.1 = .ok s)
      (r.reset arguments).transforms p.transforms ↔
      Parallel (fun e s => Selector.compile e.1 = .ok s) r.transforms p.transforms := by
    rw [parallel_iff_forall₂, parallel_iff_forall₂]
    exact List.forall₂_map_left_iff
  exact ⟨fun h => ⟨h.source, h.includes, h.excludes, htransforms.mp h.transforms⟩,
    fun h => ⟨h.source, h.includes, h.excludes, htransforms.mpr h.transforms⟩⟩

namespace CopySpec

/-- A reset changes nothing about the paths of a spec. -/
lemma hasPaths_reset_iff {s : CopySpec} {p : CopyPaths} {arguments : Arguments} :
    (s.reset arguments).HasPaths p ↔ s.HasPaths p := by
  have hrecords : Parallel SourceRecord.HasPaths (s.reset arguments).records p.records ↔
      Parallel SourceRecord.HasPaths s.records p.records := by
    rw [parallel_iff_forall₂, parallel_iff_forall₂]
    refine List.forall₂_map_left_iff.trans ?_
    simp only [SourceRecord.hasPaths_reset_iff]
  exact ⟨fun h => ⟨h.target, hrecords.mp h.records⟩, fun h => ⟨h.target, hrecords.mpr h.records⟩⟩

/-- A reset, if there was one, changes nothing about the paths of a spec. -/
lemma hasPaths_resetBy_iff {s : CopySpec} {p : CopyPaths} {arguments : Option Arguments} :
    (s.resetBy arguments).HasPaths p ↔ s.HasPaths p := by
  cases arguments with
  | none => rfl
  | some arguments => exact hasPaths_reset_iff

/-- Only the last reset matters. -/
lemma reset_resetBy (s : CopySpec) (first : Option Arguments) (a : Arguments) :
    (s.resetBy first).reset a = s.reset a := by
  cases first with
  | none => rfl
  | some first => exact s.reset_reset first a

end CopySpec

/-! ### Pairings of copy specs -/

/-- The record has been compiled: the selector of each path stands beside what is declared with the path, and
the transforms have been reset by the arguments. -/
structure SourceRecord.CompiledAs (arguments : Option Arguments) (r : SourceRecord) (c : CompiledRecord) :
    Prop where
  path : c.path = r.path
  filter : c.filter = r.filter
  source : Selector.compile r.path = .ok c.source
  includes : List.Forall₂ (fun e p => Selector.compile e.1 = .ok p.1 ∧ p.2 = e.2) r.includes c.includes
  excludes : List.Forall₂ (fun path s => Selector.compile path = .ok s) r.excludes c.excludes
  transforms : List.Forall₂ (fun e p => Selector.compile e.1 = .ok p.1 ∧ p.2 = e.2.resetBy arguments)
    r.transforms c.transforms

/-- The spec has been compiled, and its transforms have been reset by the arguments. -/
structure CopySpec.CompiledAs (arguments : Option Arguments) (s : CopySpec) (c : CompiledCopySpec) :
    Prop where
  target : Pointer.parse s.target = .ok c.target
  records : List.Forall₂ (SourceRecord.CompiledAs arguments) s.records c.records

/-- A reset of the pairing of a record. -/
lemma SourceRecord.CompiledAs.reset {r : SourceRecord} {c : CompiledRecord} (h : r.CompiledAs none c)
    (arguments : Arguments) : r.CompiledAs (some arguments) (c.reset arguments) := by
  refine ⟨h.path, h.filter, h.source, h.includes, h.excludes, ?_⟩
  refine List.forall₂_map_right_iff.mpr (h.transforms.imp fun e p hp => ⟨hp.1, ?_⟩)
  exact congrArg (Transform.reset arguments) hp.2

/-- A reset of the pairing of a spec. -/
lemma CopySpec.CompiledAs.reset {s : CopySpec} {c : CompiledCopySpec} (h : s.CompiledAs none c)
    (arguments : Arguments) : s.CompiledAs (some arguments) (c.reset arguments) :=
  ⟨h.target, List.forall₂_map_right_iff.mpr (h.records.imp fun _ _ hc => hc.reset arguments)⟩

/-- Pairing parallel lists puts every selector of a record beside what it belongs to. -/
lemma SourceRecord.HasPaths.compiledAs {r : SourceRecord} {p : RecordPaths} (h : r.HasPaths p) :
    r.CompiledAs none (r.pair p) where
  path := rfl
  filter := rfl
  source := h.source
  includes := h.includes.forall₂_map fun _ _ hs => ⟨hs, rfl⟩
  excludes := parallel_iff_forall₂.mp h.excludes
  transforms := h.transforms.forall₂_map fun _ _ hs => ⟨hs, rfl⟩

/-- Pairing parallel lists puts every selector of a spec beside what it belongs to. -/
lemma CopySpec.HasPaths.compiledAs {s : CopySpec} {p : CopyPaths} (h : s.HasPaths p) :
    s.CompiledAs none (s.pair p) :=
  ⟨h.target, h.records.forall₂_map fun _ _ hr => hr.compiledAs⟩

/-- The same after a reset, if there was one. -/
lemma CopySpec.HasPaths.compiledAs_resetBy {s : CopySpec} {p : CopyPaths} (h : s.HasPaths p)
    (arguments : Option Arguments) : s.CompiledAs arguments ((s.resetBy arguments).pair p) := by
  cases arguments with
  | none => exact h.compiledAs
  | some arguments =>
    rw [resetBy, Option.elim_some, pair_reset]
    exact h.compiledAs.reset arguments

/-! ### Decorated copiers -/

/-- The decorator owns the spec as the arguments leave it, and the compiled paths that it keeps are those of
this spec: in lists parallel to those of the spec, and the ones that compiling would give again. -/
structure CopySpec.DecoratedBy (arguments : Option Arguments) (s : CopySpec) (d : CopyDecorator) :
    Prop where
  spec : d.spec = s.resetBy arguments
  compiled : ∃ paths, d.memo = some (.ok paths) ∧ d.spec.HasPaths paths ∧
    ∀ σ, (d.spec.compilePaths.run.run σ).1 = .ok paths

/-- A decorator stays one of its spec over a reset: what is kept is still what its paths compile to. -/
lemma CopySpec.DecoratedBy.reset {arguments : Option Arguments} {s : CopySpec} {d : CopyDecorator}
    (h : s.DecoratedBy arguments d) (a : Arguments) : s.DecoratedBy (some a) (d.reset a) := by
  obtain ⟨paths, hmemo, hpaths, -⟩ := h.compiled
  have hreset : (d.spec.reset a).HasPaths paths := hasPaths_reset_iff.mpr hpaths
  refine ⟨?_, paths, hmemo, hreset, hreset.compilePaths_eq⟩
  rw [CopyDecorator.reset, h.spec, reset_resetBy]
  rfl

/-- A decorator is made of a spec by compiling its paths, or the first fault of the spec is found. -/
lemma CopyDecorator.compiles_verify (s : CopySpec) :
    Compiles (s.fault?.map (PathError.specValidation s.text)) (s.DecoratedBy none)
      (verify { spec := s }) := by
  rw [verify_ofSpec]
  exact s.compiles_paths.map fun paths h => ⟨rfl, paths, rfl, h, h.compilePaths_eq⟩

/-- Decorators are made of specs one by one. -/
lemma CopyDecorator.compiles_verifyAll (specs : List CopySpec) :
    Compiles (specs.findSome? fun s => s.fault?.map (PathError.specValidation s.text))
      (List.Forall₂ (CopySpec.DecoratedBy none) specs)
      (verifyAll (specs.map fun s => { spec := s })) := by
  induction specs with
  | nil => exact .pure .nil
  | cons s rest ih =>
    rw [findSome?_cons_or]
    exact (compiles_verify s).cons ih

/-- The transforms of the spec never find fault with a path. -/
def CopySpec.SparesPaths (s : CopySpec) : Prop :=
  ∀ r ∈ s.records, ∀ e ∈ r.transforms, e.2.SparesPaths

/-- Transforms that spare paths do so after any reset. -/
lemma CopySpec.CompiledAs.sparesPaths {arguments : Option Arguments} {s : CopySpec}
    {c : CompiledCopySpec} (h : s.CompiledAs arguments c) (hs : s.SparesPaths) : c.SparesPaths := by
  intro q hq e he
  obtain ⟨r, hr, hrecord⟩ := (parallel_iff_forall₂.mpr h.records).exists_left hq
  obtain ⟨e', he', -, htransform⟩ := (parallel_iff_forall₂.mpr hrecord.transforms).exists_left he
  rw [htransform]
  have hspares := hs r hr e' he'
  cases arguments with
  | none => exact hspares
  | some arguments => exact hspares.reset arguments

namespace DecoratedCopier

variable {fast : Bool} {specs : List CopySpec} {σ : Session} {c : DecoratedCopier}
  {arguments : Option Arguments}

/-- A copier is made of decorators of its specs, or the first fault of the specs is found. -/
theorem compiles_ofSpecs (fast : Bool) (specs : List CopySpec) :
    Compiles (specs.findSome? fun s => s.fault?.map (PathError.specValidation s.text))
      (fun c => c.fast = fast ∧ List.Forall₂ (CopySpec.DecoratedBy none) specs c.specs)
      (ofSpecs fast specs) := by
  rw [← Option.or_none (o := List.findSome? _ _)]
  exact (CopyDecorator.compiles_verifyAll specs).bind fun _ hspecs =>
    (Compiles.report _).andReturn fun _ _ => ⟨rfl, hspecs⟩

/-- A copier is constructed if every target leads to one location and every other path may be compiled. -/
lemma exists_ofSpecs_iff : (∃ c, ((ofSpecs fast specs).run.run σ).1 = .ok c) ↔
    ∀ s ∈ specs, (∃ p, Pointer.parse s.target = .ok p) ∧
      ∀ r ∈ s.records, ∀ path ∈ r.paths, ∃ selector, Selector.compile path = .ok selector := by
  rw [(compiles_ofSpecs fast specs σ).exists_ok_iff, List.findSome?_eq_none_iff]
  simp only [Option.map_eq_none_iff, CopySpec.fault?_eq_none_iff]

/-- The construction of a copier fails with the first fault of the first spec that has one. -/
lemma ofSpecs_eq_error_iff {e : PathError} : ((ofSpecs fast specs).run.run σ).1 = .error e ↔
    ∃ before s after cause, specs = before ++ s :: after ∧ (∀ s' ∈ before, s'.fault? = none) ∧
      s.fault? = some cause ∧ e = .specValidation s.text cause := by
  rw [(compiles_ofSpecs fast specs σ).eq_error_iff, findSome?_map_eq_some_iff]

/-- Decorators of specs have been compiled. -/
lemma verified_of_decoratedBy (h : List.Forall₂ (CopySpec.DecoratedBy arguments) specs c.specs) :
    c.Verified := by
  intro d hd
  obtain ⟨s, -, hs⟩ := (parallel_iff_forall₂.mpr h).exists_left hd
  obtain ⟨paths, hmemo, -⟩ := hs.compiled
  exact ⟨paths, hmemo⟩

/-- In the paired copier every selector stands beside what it belongs to. -/
lemma compiledAs_paired (h : List.Forall₂ (CopySpec.DecoratedBy arguments) specs c.specs) :
    List.Forall₂ (CopySpec.CompiledAs arguments) specs c.paired.specs := by
  refine forall₂_filterMap (h.imp fun s d hd => ?_)
  obtain ⟨paths, hmemo, hpaths, -⟩ := hd.compiled
  refine ⟨_, d.paired?_of_memo hmemo, ?_⟩
  rw [hd.spec] at hpaths ⊢
  exact (CopySpec.hasPaths_resetBy_iff.mp hpaths).compiledAs_resetBy arguments

/-- Decorators stay those of their specs over a reset. -/
lemma decoratedBy_reset (h : List.Forall₂ (CopySpec.DecoratedBy arguments) specs c.specs)
    (a : Arguments) : List.Forall₂ (CopySpec.DecoratedBy (some a)) specs (c.reset a).specs :=
  List.forall₂_map_right_iff.mpr (h.imp fun _ _ hd => hd.reset a)

/-- Decorators that have been constructed are those of their specs after a reset, if there was one. -/
lemma decoratedBy_resetBy (h : List.Forall₂ (CopySpec.DecoratedBy none) specs c.specs)
    (arguments : Option Arguments) :
    List.Forall₂ (CopySpec.DecoratedBy arguments) specs (c.resetBy arguments).specs := by
  cases arguments with
  | none => exact h
  | some a => exact decoratedBy_reset h a

/-- A sequence of calls leaves the copier as the last arguments do. -/
lemma run_after_fst (h : c.Verified) (calls : List Copier.Call) (σ : Session) :
    ((c.after calls).run σ).1 = c.resetBy (Copier.lastArguments calls) := by
  rw [h.after_eq, StateT.run_map]
  rfl

/-- A reset leaves the shortcut allowed or not, as it was. -/
lemma fast_resetBy (c : DecoratedCopier) (arguments : Option Arguments) :
    (c.resetBy arguments).fast = c.fast := by
  cases arguments <;> rfl

/-- A copier never finds fault with a path if the transforms of its specs do not. -/
theorem failsWith_copy (h : List.Forall₂ (CopySpec.DecoratedBy arguments) specs c.specs)
    (hs : ∀ s ∈ specs, s.SparesPaths) (source t : Tree) (σ : Session) :
    ((c.copy source t).run σ).1.1.FailsWith PathError.SparesPaths := by
  have hpaired : c.paired.SparesPaths := by
    intro q hq
    obtain ⟨s, hs', hcompiled⟩ := (parallel_iff_forall₂.mpr (compiledAs_paired h)).exists_left hq
    exact hcompiled.sparesPaths (hs s hs')
  rw [(verified_of_decoratedBy h).copy_eq, StateT.run_map]
  exact Copier.failsWith_copy hpaired source t σ

end DecoratedCopier

/-! ### Build specs -/

namespace BuildSpec

/-- The paths of a spec in the order in which they are checked: the target, those of the literals, and those
of the looked-up values. -/
def paths (s : BuildSpec) : List String :=
  [s.target] ++ (s.literals.map LiteralEntry.into ++ s.puts.map PutEntry.into)

/-- The first fault of a spec. -/
def fault? (s : BuildSpec) : Option PathError := s.paths.findSome? Pointer.fault?

/-- The compiled paths are those of the spec, in lists parallel to those of the spec. -/
structure HasPaths (s : BuildSpec) (p : BuildPaths) : Prop where
  target : Pointer.parse s.target = .ok p.target
  literals : Parallel (fun e into => Pointer.parse e.into = .ok into) s.literals p.literals
  puts : Parallel (fun e into => Pointer.parse e.into = .ok into) s.puts p.puts

/-- The spec has been compiled: the pointer of each path stands beside what is declared with the path. -/
structure CompiledAs (s : BuildSpec) (c : CompiledBuildSpec) : Prop where
  target : Pointer.parse s.target = .ok c.target
  literals : List.Forall₂ (fun e plan => Pointer.parse e.into = .ok plan.into ∧ plan.value = e.value)
    s.literals c.literals
  puts : List.Forall₂ (fun e plan => Pointer.parse e.into = .ok plan.into ∧ plan.mode = e.mode ∧
    plan.question = ⟨e.key, s.representationOf e⟩) s.puts c.puts

/-- The decorator owns the spec, and the compiled paths that it keeps are those of the spec: in lists
parallel to those of the spec, and the ones that compiling would give again. -/
structure DecoratedBy (s : BuildSpec) (d : BuildDecorator) : Prop where
  spec : d.spec = s
  compiled : ∃ paths, d.memo = some (.ok paths) ∧ d.spec.HasPaths paths ∧
    d.spec.compilePaths = .ok paths

/-- A spec has no fault if every path leads to one location. -/
lemma fault?_eq_none_iff {s : BuildSpec} :
    s.fault? = none ↔ ∀ path ∈ s.paths, ∃ p, Pointer.parse path = .ok p := by
  simp only [fault?, List.findSome?_eq_none_iff, Pointer.fault?, errorOf?_eq_none_iff]

/-- The paths of a spec are compiled to lists parallel to those of the spec, or its first fault is found and
named after it. -/
theorem verdict_compilePaths (s : BuildSpec) :
    Verdict (s.fault?.map (PathError.specValidation s.text)) s.HasPaths s.compilePaths := by
  refine Verdict.mapError ?_ _
  rw [fault?, paths, List.findSome?_append, List.findSome?_append, findSome?_singleton,
    List.findSome?_map, List.findSome?_map]
  have hliteral (e : LiteralEntry) : Verdict (Pointer.fault? e.into)
      (fun into => Pointer.parse e.into = .ok into) (Pointer.parse e.into) := verdict_self _
  have hput (e : PutEntry) : Verdict (Pointer.fault? e.into)
      (fun into => Pointer.parse e.into = .ok into) (Pointer.parse e.into) := verdict_self _
  refine (verdict_self (Pointer.parse s.target)).bind fun target htarget => ?_
  refine (verdict_mapUntilFault hliteral s.literals).bind fun literals hliterals => ?_
  refine (verdict_mapUntilFault hput s.puts).map fun puts hputs => ⟨htarget, ?_, ?_⟩
  · exact parallel_iff_forall₂.mpr hliterals
  · exact parallel_iff_forall₂.mpr hputs

/-- Pairing parallel lists puts every pointer beside what it belongs to. -/
lemma HasPaths.compiledAs {s : BuildSpec} {p : BuildPaths} (h : s.HasPaths p) :
    s.CompiledAs (s.pair p) where
  target := h.target
  literals := h.literals.forall₂_map fun _ _ hp => ⟨hp, rfl⟩
  puts := h.puts.forall₂_map fun _ _ hp => ⟨hp, rfl, rfl⟩

/-- A spec is compiled, or its first fault is found and named after it. -/
lemma verdict_compile (s : BuildSpec) :
    Verdict (s.fault?.map (PathError.specValidation s.text)) (CompiledAs s) s.compile :=
  s.verdict_compilePaths.map fun _ => HasPaths.compiledAs

end BuildSpec

/-- A builder is compiled from its specs, or the first fault of the specs is found. -/
theorem Builder.verdict_ofSpecs (specs : List BuildSpec) :
    Verdict (specs.findSome? fun s => s.fault?.map (PathError.specValidation s.text))
      (fun b => List.Forall₂ BuildSpec.CompiledAs specs b.specs) (ofSpecs specs) :=
  (verdict_mapUntilFault BuildSpec.verdict_compile specs).map fun _ hspecs => hspecs

/-! ### Decorated builders -/

/-- A decorator is made of a spec by compiling its paths, or the first fault of the spec is found. -/
lemma BuildDecorator.verdict_verify (s : BuildSpec) :
    Verdict (s.fault?.map (PathError.specValidation s.text)) s.DecoratedBy (verify { spec := s }) := by
  have hverdict := s.verdict_compilePaths
  rw [verify_ofSpec]
  cases hpaths : s.compilePaths with
  | error e =>
    rw [hpaths] at hverdict
    exact hverdict
  | ok paths =>
    rw [hpaths] at hverdict
    exact ⟨hverdict.1, rfl, paths, rfl, hverdict.2, hpaths⟩

namespace DecoratedBuilder

variable {specs : List BuildSpec} {b : DecoratedBuilder}

/-- A builder is made of decorators of its specs, or the first fault of the specs is found. -/
theorem verdict_ofSpecs (specs : List BuildSpec) :
    Verdict (specs.findSome? fun s => s.fault?.map (PathError.specValidation s.text))
      (fun b => List.Forall₂ BuildSpec.DecoratedBy specs b.specs) (ofSpecs specs) := by
  rw [ofSpecs, mapUntilFault_map]
  exact (verdict_mapUntilFault BuildDecorator.verdict_verify specs).map fun _ hspecs => hspecs

/-- A builder is constructed if every path leads to one location. -/
lemma exists_ofSpecs_iff : (∃ b, ofSpecs specs = .ok b) ↔
    ∀ s ∈ specs, ∀ path ∈ s.paths, ∃ p, Pointer.parse path = .ok p := by
  rw [(verdict_ofSpecs specs).exists_ok_iff, List.findSome?_eq_none_iff]
  simp only [Option.map_eq_none_iff, BuildSpec.fault?_eq_none_iff]

/-- The construction of a builder fails with the first fault of the first spec that has one. -/
lemma ofSpecs_eq_error_iff {e : PathError} : ofSpecs specs = .error e ↔
    ∃ before s after cause, specs = before ++ s :: after ∧ (∀ s' ∈ before, s'.fault? = none) ∧
      s.fault? = some cause ∧ e = .specValidation s.text cause := by
  rw [(verdict_ofSpecs specs).eq_error_iff, findSome?_map_eq_some_iff]

/-- Decorators of specs have been compiled, and each literal has a pointer. -/
lemma verified_of_decoratedBy (h : List.Forall₂ BuildSpec.DecoratedBy specs b.specs) : b.Verified := by
  intro d hd
  obtain ⟨s, -, hs⟩ := (parallel_iff_forall₂.mpr h).exists_left hd
  obtain ⟨paths, hmemo, hpaths, -⟩ := hs.compiled
  exact ⟨paths, hmemo, (parallel_iff_forall₂.mp hpaths.literals).length_eq⟩

/-- In the paired builder every pointer stands beside what it belongs to. -/
lemma compiledAs_paired (h : List.Forall₂ BuildSpec.DecoratedBy specs b.specs) :
    List.Forall₂ BuildSpec.CompiledAs specs b.paired.specs := by
  refine forall₂_filterMap (h.imp fun s d hd => ?_)
  obtain ⟨paths, hmemo, hpaths, -⟩ := hd.compiled
  refine ⟨_, d.paired?_of_memo hmemo, ?_⟩
  rw [hd.spec] at hpaths ⊢
  exact hpaths.compiledAs

/-- A builder never finds fault with a path. -/
theorem failsWith_build (h : List.Forall₂ BuildSpec.DecoratedBy specs b.specs) (lookup : Lookup)
    (t : Tree) (σ : Session) :
    ((b.build lookup t).run σ).1.1.outcome.FailsWith PathError.SparesPaths := by
  rw [(verified_of_decoratedBy h).build_eq, StateT.run_map]
  exact (b.paired.failsWith_build lookup t σ).mono fun _ => PathError.OfChange.sparesPaths

end DecoratedBuilder

/-! ### Construction -/

/-- **Engines check every path when they are constructed.**  The construction succeeds if every path can be
compiled, and otherwise its error names the first spec with a fault and the first fault of that spec.

In an engine that has been constructed the lists of compiled paths are parallel to those of the specs, so
that their zips drop nothing, and they stay what the paths compile to through every sequence of calls.  Its
runs are those of the paired engine, in which everything declared stands beside what its own path was
compiled to.  If the transforms of a copier never find fault with a path then no run does, whatever the
copier has been used for before; no run of a builder does. -/
theorem engines_check_paths :
    (∀ (fast : Bool) (specs : List CopySpec) (σ : Session),
      ((∃ c, ((DecoratedCopier.ofSpecs fast specs).run.run σ).1 = .ok c) ↔
        ∀ s ∈ specs, (∃ p, Pointer.parse s.target = .ok p) ∧
          ∀ r ∈ s.records, ∀ path ∈ r.paths, ∃ selector, Selector.compile path = .ok selector) ∧
      (∀ e, ((DecoratedCopier.ofSpecs fast specs).run.run σ).1 = .error e ↔
        ∃ before s after cause, specs = before ++ s :: after ∧ (∀ s' ∈ before, s'.fault? = none) ∧
          s.fault? = some cause ∧ e = .specValidation s.text cause) ∧
      DecoratedCopier.paired <$> DecoratedCopier.ofSpecs fast specs = Copier.ofSpecs fast specs ∧
      ∀ c, ((DecoratedCopier.ofSpecs fast specs).run.run σ).1 = .ok c →
        ∀ calls : List Copier.Call,
          DecoratedCopier.paired <$> c.after calls = c.paired.after calls ∧
          ∀ σ' : Session, ∃ c', ((c.after calls).run σ').1 = c' ∧ c'.fast = fast ∧
            List.Forall₂ (CopySpec.DecoratedBy (Copier.lastArguments calls)) specs c'.specs ∧
            List.Forall₂ (CopySpec.CompiledAs (Copier.lastArguments calls)) specs c'.paired.specs ∧
            c'.RunsAsPaired ∧
            ((∀ s ∈ specs, s.SparesPaths) → ∀ (source t : Tree) (σ'' : Session),
              ((c'.copy source t).run σ'').1.1.FailsWith PathError.SparesPaths ∧
              ∀ arguments,
                ((c'.copyWith arguments source t).run σ'').1.1.FailsWith PathError.SparesPaths)) ∧
    ∀ specs : List BuildSpec,
      ((∃ b, DecoratedBuilder.ofSpecs specs = .ok b) ↔
        ∀ s ∈ specs, ∀ path ∈ s.paths, ∃ p, Pointer.parse path = .ok p) ∧
      (∀ e, DecoratedBuilder.ofSpecs specs = .error e ↔
        ∃ before s after cause, specs = before ++ s :: after ∧ (∀ s' ∈ before, s'.fault? = none) ∧
          s.fault? = some cause ∧ e = .specValidation s.text cause) ∧
      (DecoratedBuilder.ofSpecs specs).map DecoratedBuilder.paired = Builder.ofSpecs specs ∧
      ∀ b, DecoratedBuilder.ofSpecs specs = .ok b →
        List.Forall₂ BuildSpec.DecoratedBy specs b.specs ∧
        List.Forall₂ BuildSpec.CompiledAs specs b.paired.specs ∧
        b.RunsAsPaired ∧
        ∀ (lookup : Lookup) (t : Tree) (σ : Session),
          ((b.build lookup t).run σ).1.1.outcome.FailsWith PathError.SparesPaths := by
  constructor
  · intro fast specs σ
    refine ⟨DecoratedCopier.exists_ofSpecs_iff, fun e => DecoratedCopier.ofSpecs_eq_error_iff,
      DecoratedCopier.paired_ofSpecs fast specs, ?_⟩
    intro c hc calls
    obtain ⟨hfast, hspecs⟩ := (DecoratedCopier.compiles_ofSpecs fast specs σ).of_ok hc
    have hverified := DecoratedCopier.verified_of_decoratedBy hspecs
    have hafter := DecoratedCopier.decoratedBy_resetBy hspecs (Copier.lastArguments calls)
    refine ⟨hverified.paired_after calls, fun σ' => ⟨_, rfl, ?_⟩⟩
    rw [DecoratedCopier.run_after_fst hverified]
    refine ⟨(c.fast_resetBy _).trans hfast, hafter, DecoratedCopier.compiledAs_paired hafter,
      (DecoratedCopier.verified_of_decoratedBy hafter).runsAsPaired, ?_⟩
    intro hspares source t σ''
    refine ⟨DecoratedCopier.failsWith_copy hafter hspares source t σ'', fun arguments => ?_⟩
    -- copying with arguments copies with the copier that they leave
    exact DecoratedCopier.failsWith_copy (DecoratedCopier.decoratedBy_reset hafter arguments)
      hspares source t σ''
  · intro specs
    refine ⟨DecoratedBuilder.exists_ofSpecs_iff, fun e => DecoratedBuilder.ofSpecs_eq_error_iff,
      DecoratedBuilder.paired_ofSpecs specs, ?_⟩
    intro b hb
    have hspecs := (DecoratedBuilder.verdict_ofSpecs specs).of_ok hb
    exact ⟨hspecs, DecoratedBuilder.compiledAs_paired hspecs,
      (DecoratedBuilder.verified_of_decoratedBy hspecs).runsAsPaired,
      DecoratedBuilder.failsWith_build hspecs⟩

/-- A copier that copies `/a` to `/t`, excludes `/y`, wraps `/z` and converts `/t/x/y` is constructed.  Without
a declared include the copy of the whole match stands beside its own selector, and after a reset the run fails,
since nothing is at `/t/x`; a builder of a list at `/l` fails on a value there.  Neither finds fault with a
path.  With a bad exclude and a bad source the exclude is blamed, in the second spec. -/
theorem engines_check_paths_second_spec :
    (∃ (specs : List CopySpec) (σ : Session) (c : DecoratedCopier) (calls : List Copier.Call)
        (c' : DecoratedCopier) (e : PathError),
      ((DecoratedCopier.ofSpecs true specs).run.run σ).1 = .ok c ∧ calls.length = 1 ∧
      ((c.after calls).run σ).1 = c' ∧
      List.Forall₂ (CopySpec.DecoratedBy (Copier.lastArguments calls)) specs c'.specs ∧
      (c'.paired.specs.map fun s => s.records.map fun r =>
        (r.includes.map (·.1.path), r.excludes.map Selector.path, r.transforms.map (·.1.path)))
        = [[([""], ["/y"], ["/z", "/x/y"])]] ∧
      ((c'.copy (.map [("a", .map [])]) (.map [])).run σ).1.1.error = some e ∧ e.SparesPaths) ∧
    (∃ (specs : List BuildSpec) (b : DecoratedBuilder) (e : PathError) (σ : Session),
      DecoratedBuilder.ofSpecs specs = .ok b ∧ b.paired.specs.map (·.literals.length) = [1] ∧
      ((b.build (fun _ => none) (.map [("l", .bool true)])).run σ).1.1.outcome.error = some e ∧
      e.SparesPaths) ∧
    ∃ (s s' : CopySpec) (σ : Session), ((DecoratedCopier.ofSpecs true [s, s']).run.run σ).1
      = .error (.specValidation s'.text (.malformed "x" .noLeadingSlash)) := by
  obtain ⟨hcopiers, hbuilders⟩ := engines_check_paths
  have hcopier : ((DecoratedCopier.ofSpecs true [⟨"/t", [⟨"/a", none, [], ["/y"],
      [("/z", .function fun t => .ok (.array [t])), ("/x/y", .convert .toInt64)]⟩]⟩]).run.run
        (.ofCapacity 1)).1
    = .ok ⟨true, [⟨⟨"/t", [⟨"/a", none, [], ["/y"],
        [("/z", .function fun t => .ok (.array [t])), ("/x/y", .convert .toInt64)]⟩]⟩,
      some (.ok ⟨⟨[⟨"t"⟩]⟩, [⟨⟨"/a", [.literal ⟨[⟨"a"⟩]⟩, .terminal]⟩,
        [⟨"", [.literal .root, .terminal]⟩], [⟨"/y", [.literal ⟨[⟨"y"⟩]⟩, .terminal]⟩],
        [⟨"/z", [.literal ⟨[⟨"z"⟩]⟩, .terminal]⟩,
          ⟨"/x/y", [.literal ⟨[⟨"x"⟩, ⟨"y"⟩]⟩, .terminal]⟩]⟩]⟩)⟩]⟩ := rfl
  have hbuilder : DecoratedBuilder.ofSpecs [⟨"", .native, [⟨.null, "/l/0"⟩], []⟩]
    = .ok ⟨[⟨⟨"", .native, [⟨.null, "/l/0"⟩], []⟩,
      some (.ok ⟨.root, [⟨[⟨"l"⟩, ⟨"0"⟩]⟩], []⟩)⟩]⟩ := rfl
  refine ⟨⟨_, _, _, [.reset fun _ => none], _, .missingParent "/x/y", hcopier, rfl, rfl, ?_, rfl, rfl,
    ?_⟩, ⟨_, _, Obstacle.at (.notContainer ⟨"l"⟩) ⟨[⟨"l"⟩, ⟨"0"⟩]⟩, .ofCapacity 1, hbuilder, rfl, rfl,
    ?_⟩, ⟨"", []⟩, ⟨"", [⟨"y", none, [], ["x"], []⟩]⟩, .ofCapacity 1, ?_⟩
  · obtain ⟨c', rfl, -, hspecs, -⟩ :=
      ((hcopiers _ _ _).2.2.2 _ hcopier [.reset fun _ => none]).2 (.ofCapacity 1)
    exact hspecs
  · obtain ⟨c', rfl, -, -, -, -, hruns⟩ :=
      ((hcopiers _ _ _).2.2.2 _ hcopier [.reset fun _ => none]).2 (.ofCapacity 1)
    refine (hruns ?_ (.map [("a", .map [])]) (.map []) (.ofCapacity 1)).1 _ rfl
    refine List.forall_mem_singleton.mpr (List.forall_mem_singleton.mpr ?_)
    exact List.forall_mem_cons.mpr ⟨Transform.sparesPaths_function_ok fun t => .array [t],
      List.forall_mem_singleton.mpr trivial⟩
  · exact ((hbuilders _).2.2.2 _ hbuilder).2.2.2 (fun _ => none) (.map [("l", .bool true)])
      (.ofCapacity 1) _ rfl
  · refine ((hcopiers true _ _).2.1 _).mpr ⟨[⟨"", []⟩], ⟨"", [⟨"y", none, [], ["x"], []⟩]⟩, [], _,
      rfl, ?_, rfl, rfl⟩
    exact List.forall_mem_singleton.mpr rfl

end DocumentPath
