import Mathlib
import DocumentPath.Proofs.BuildSteps

/-!
# What a builder writes reads back

A step of a build disturbs a location if it places a value at, above or below it, or makes a container
properly below it (`BuildStep.Disturbs`).  Every other step keeps what the location holds, and where it holds
nothing makes no array there.  A value that was put is thus still there after steps that do not disturb its
location, and the values that are added at one location follow, in the order of the steps, the elements that
were there before them (`BuildStep.TakesAll.collects`).
-/

namespace DocumentPath

namespace BuildStep

variable {d : List Segment}

/-- The step may change what a location holds. -/
def Disturbs (d : List Segment) : BuildStep → Prop
  | .target path => d <+: path ∧ d ≠ path
  | .entry destination _ _ _ => Comparable destination d

instance (step : BuildStep) : Decidable (step.Disturbs d) :=
  match step with
  | .target path => inferInstanceAs (Decidable (d <+: path ∧ d ≠ path))
  | .entry destination _ _ _ => inferInstanceAs (Decidable (Comparable destination d))

/-- The value that a step adds at a location, and its representation. -/
def addAt? (d : List Segment) : BuildStep → Option (Scalar × Representation)
  | .entry destination .add value representation =>
    if destination = d then some (value, representation) else none
  | _ => none

/-- A step that does not disturb a location is beside it, or makes sure that there is a container at or
above it. -/
lemma Takes.cases_of_not_disturbs {step : BuildStep} {t t' : Tree} (h : step.Takes t t')
    (hd : ¬ step.Disturbs d) :
    (∀ p ∈ ({step.location} : Set (List Segment)), ¬ Comparable p d) ∨
      ∃ path r, d = path ++ r ∧ t'.at? d = ((t.at? path).getD (.map [])).at? r := by
  by_cases hcomp : Comparable step.location d
  · cases step with
    | entry => exact absurd hcomp hd
    | target path =>
      have hpre : path <+: d := by
        rcases hcomp with hpre | hpre
        · exact hpre
        · by_cases heq : d = path
          · rw [heq]
          · exact absurd ⟨hpre, heq⟩ hd
      obtain ⟨r, rfl⟩ := hpre
      have hleaves : t'.at? path = some ((t.at? path).getD (.map [])) := h.leaves
      refine .inr ⟨path, r, rfl, ?_⟩
      rw [Tree.at?_append, hleaves, Option.bind_some]
  · left
    rintro p rfl
    exact hcomp

/-- What a location holds is kept by a step that does not disturb it. -/
lemma Takes.kept {step : BuildStep} {t t' u : Tree} (h : step.Takes t t') (hd : ¬ step.Disturbs d)
    (hu : t.at? d = some u) : t'.at? d = some u := by
  rcases h.cases_of_not_disturbs hd with hbeside | ⟨path, r, rfl, hafter⟩
  · exact h.untouched.kept d u hbeside hu
  · rw [Tree.at?_append] at hu
    obtain ⟨c, hc, hu⟩ := Option.bind_eq_some_iff.mp hu
    rw [hafter, hc, Option.getD_some, hu]

/-- Where nothing is, a step that does not disturb the location makes no array. -/
lemma Takes.not_array {step : BuildStep} {t t' : Tree} (h : step.Takes t t')
    (hd : ¬ step.Disturbs d) (hnone : t.at? d = none) (items : List Tree) :
    t'.at? d ≠ some (.array items) := by
  rcases h.cases_of_not_disturbs hd with hbeside | ⟨path, r, rfl, hafter⟩
  · rcases h.untouched.padded d hbeside hnone with hstill | ⟨_, _, _, _, -, -, -, -, hnull⟩
    · simp [hstill]
    · simp [hnull]
  · rw [hafter]
    rw [Tree.at?_append] at hnone
    cases hc : t.at? path with
    | some c =>
      rw [hc, Option.bind_some] at hnone
      simp [hnone]
    | none => cases r <;> simp [Tree.at?_cons, Tree.child?, Tree.field?]

/-- What a location holds is kept by steps that do not disturb it. -/
theorem TakesAll.kept {steps : List BuildStep} {t t' u : Tree} (h : TakesAll steps t t')
    (hd : ∀ step ∈ steps, ¬ step.Disturbs d) (hu : t.at? d = some u) : t'.at? d = some u := by
  induction h with
  | nil => exact hu
  | @cons step rest t t₁ t' hstep _ ih =>
    exact ih (fun step' hs => hd step' (List.mem_cons_of_mem _ hs))
      (hstep.kept (hd step List.mem_cons_self) hu)

lemma addAt?_eq_some_iff {step : BuildStep} {value : Scalar} {representation : Representation} :
    step.addAt? d = some (value, representation) ↔ step = .entry d .add value representation := by
  cases step with
  | target => simp [addAt?]
  | entry destination mode => cases mode <;> simp [addAt?]

/-- The values are those of the entries, each in its representation. -/
def Coerced (entries : List (Scalar × Representation)) (values : List Tree) : Prop :=
  List.Forall₂ (fun e x => e.1.coerce e.2 = .ok x) entries values

/-- Where steps only add values or do not disturb, the values follow the elements that were there before. -/
theorem TakesAll.collects {steps : List BuildStep} {t t' : Tree} (h : TakesAll steps t t')
    (hd : ∀ step ∈ steps, step.addAt? d = none → ¬ step.Disturbs d) :
    ∃ values, Coerced (steps.filterMap (addAt? d)) values ∧
      (values = [] ∧ (∀ u, t.at? d = some u → t'.at? d = some u) ∨
        ∃ items, (t.at? d).getD (.array []) = .array items ∧
          t'.at? d = some (.array (items ++ values))) := by
  induction h with
  | nil t => exact ⟨[], .nil, .inl ⟨rfl, fun u hu => hu⟩⟩
  | @cons step rest t t₁ t' hstep _ ih =>
    obtain ⟨values, hvalues, hrest⟩ := ih fun step' hs => hd step' (List.mem_cons_of_mem _ hs)
    cases hadd : step.addAt? d with
    | none =>
      -- the step itself makes no difference to what the others find
      have hspares := hd step List.mem_cons_self hadd
      rw [List.filterMap_cons_none hadd]
      refine ⟨values, hvalues, hrest.imp ?_ ?_⟩
      · rintro ⟨hnil, hkept⟩
        exact ⟨hnil, fun u hu => hkept u (hstep.kept hspares hu)⟩
      · rintro ⟨items, hitems, hafter⟩
        refine ⟨items, ?_, hafter⟩
        cases hbefore : t.at? d with
        | some u => rwa [hstep.kept hspares hbefore] at hitems
        | none =>
          cases hmid : t₁.at? d with
          | none => rwa [hmid] at hitems
          | some u =>
            rw [hmid, Option.getD_some] at hitems
            exact absurd (hitems ▸ hmid) (hstep.not_array hspares hbefore items)
    | some e =>
      obtain rfl := addAt?_eq_some_iff.mp hadd
      obtain ⟨items, x, hx, hitems, hadded⟩ := hstep.leaves
      change t₁.at? d = some (.array (items ++ [x])) at hadded
      rw [List.filterMap_cons_some hadd]
      refine ⟨x :: values, .cons hx hvalues, .inr ⟨items, hitems, ?_⟩⟩
      rcases hrest with ⟨rfl, hkept⟩ | ⟨items', hitems', hafter⟩
      · exact hkept _ hadded
      · rw [hadded, Option.getD_some] at hitems'
        rw [hafter, ← Tree.array.inj hitems', List.append_assoc, List.singleton_append]

end BuildStep

namespace Builder

/-- The targets of the steps are those of the specs. -/
lemma exists_spec_of_target_mem {b : Builder} {lookup : Lookup} {path : List Segment}
    (h : .target path ∈ b.steps lookup) : ∃ s ∈ b.specs, path = s.target.segments := by
  have hentry : ∀ {s : CompiledBuildSpec} {step : BuildStep} {w : List Segment},
      step ∈ s.literals.map LiteralPlan.step ∨ step ∈ s.puts.filterMap (PutPlan.step? lookup) →
      step.under w ≠ .target path := by
    rintro s step w (hstep | hstep)
    · obtain ⟨e, -, rfl⟩ := List.mem_map.mp hstep
      exact nofun
    · obtain ⟨e, -, he⟩ := List.mem_filterMap.mp hstep
      obtain ⟨value, -, rfl⟩ := Option.map_eq_some_iff.mp he
      exact nofun
  rcases List.mem_append.mp h with h | h
  · obtain ⟨s, hs, hstep⟩ := List.mem_flatMap.mp h
    refine ⟨s, hs, ?_⟩
    unfold CompiledBuildSpec.literalSteps at hstep
    split at hstep
    · exact absurd hstep List.not_mem_nil
    · rcases List.mem_cons.mp hstep with htarget | hstep
      · exact BuildStep.target.inj htarget
      · obtain ⟨step, hmem, hunder⟩ := List.mem_map.mp hstep
        exact absurd hunder (hentry (.inl hmem))
  · obtain ⟨s, hs, hstep⟩ := List.mem_flatMap.mp h
    refine ⟨s, hs, ?_⟩
    rcases List.mem_cons.mp hstep with htarget | hstep
    · exact BuildStep.target.inj htarget
    · obtain ⟨step, hmem, hunder⟩ := List.mem_map.mp hstep
      exact absurd hunder (hentry (.inr hmem))

/-- After a build that succeeds, a value that was put at a location which no later step disturbs is there,
and where every value at, above or below a location is added to it, and no target is properly below it, are
the elements that were there before, if any, and the added values in the order of the build. -/
theorem build_reads_back {b : Builder} {lookup : Lookup} {t : Tree} {σ : Session}
    (hok : ((b.build lookup t).run σ).1.outcome.error = none) :
    (∀ before after d value representation,
      b.steps lookup = before ++ .entry d .put value representation :: after →
      (∀ step ∈ after, ¬ step.Disturbs d) →
      ∃ x, value.coerce representation = .ok x ∧
        ((b.build lookup t).run σ).1.outcome.tree.at? d = some x) ∧
    (∀ d,
      (∃ value representation, .entry d .add value representation ∈ b.steps lookup) →
      (∀ destination mode value representation,
        .entry destination mode value representation ∈ b.steps lookup →
        Comparable destination d → destination = d ∧ mode = .add) →
      (∀ s ∈ b.specs, d <+: s.target.segments → d = s.target.segments) →
      ∃ items values, (t.at? d).getD (.array []) = .array items ∧
        BuildStep.Coerced ((b.steps lookup).filterMap (BuildStep.addAt? d)) values ∧
        ((b.build lookup t).run σ).1.outcome.tree.at? d = some (.array (items ++ values))) := by
  have hsteps := takesAll_build hok
  refine ⟨fun before after d value representation hsplit hafter => ?_,
    fun d ⟨value, representation, hmem⟩ hentries htargets => ?_⟩
  · rw [hsplit] at hsteps
    obtain ⟨t₁, -, hrest⟩ := hsteps.of_append
    cases hrest with
    | cons hput hrest =>
      obtain ⟨x, hx, hthere⟩ := hput.leaves
      exact ⟨x, hx, hrest.kept hafter hthere⟩
  · have hspares : ∀ step ∈ b.steps lookup, step.addAt? d = none → ¬ step.Disturbs d := by
      intro step hstep hadd hdisturbs
      cases step with
      | target path =>
        obtain ⟨s, hs, rfl⟩ := exists_spec_of_target_mem hstep
        exact hdisturbs.2 (htargets s hs hdisturbs.1)
      | entry destination mode value representation =>
        obtain ⟨rfl, rfl⟩ := hentries _ _ _ _ hstep hdisturbs
        exact absurd (hadd.symm.trans (BuildStep.addAt?_eq_some_iff.mpr rfl)) (by simp)
    obtain ⟨values, hvalues, ⟨rfl, -⟩ | ⟨items, hitems, hresult⟩⟩ := hsteps.collects hspares
    · -- there is a value to add
      have hadded : (value, representation) ∈ (b.steps lookup).filterMap (BuildStep.addAt? d) :=
        List.mem_filterMap.mpr ⟨_, hmem, BuildStep.addAt?_eq_some_iff.mpr rfl⟩
      rw [List.forall₂_nil_right_iff.mp hvalues] at hadded
      exact absurd hadded List.not_mem_nil
    · exact ⟨items, values, hitems, hvalues, hresult⟩

/-- A text is put at `/m/a` and two texts are added to the list at `/m/l` in `{"m": {"l": [null]}}`. -/
theorem build_reads_back_list : ∃ (b : Builder) (lookup : Lookup) (t : Tree) (σ : Session),
    ((b.build lookup t).run σ).1.outcome.error = none ∧
    ((b.build lookup t).run σ).1.outcome.tree.at? [⟨"m"⟩, ⟨"a"⟩] = some (.text "p") ∧
    ((b.build lookup t).run σ).1.outcome.tree.at? [⟨"m"⟩, ⟨"l"⟩]
      = some (.array [.null, .text "x", .text "y"]) := by
  let b : Builder := ⟨[⟨⟨[⟨"m"⟩]⟩, [⟨.text "p", ⟨[⟨"a"⟩]⟩⟩],
    [⟨⟨"x", .native⟩, .add, ⟨[⟨"l"⟩]⟩⟩, ⟨⟨"y", .text⟩, .add, ⟨[⟨"l"⟩]⟩⟩]⟩]⟩
  let lookup : Lookup := fun q => some (.text q.key)
  let t : Tree := .map [("m", .map [("l", .array [.null])])]
  have hsteps : b.steps lookup = [.target [⟨"m"⟩], .entry [⟨"m"⟩, ⟨"a"⟩] .put (.text "p") .native,
    .target [⟨"m"⟩], .entry [⟨"m"⟩, ⟨"l"⟩] .add (.text "x") .native,
    .entry [⟨"m"⟩, ⟨"l"⟩] .add (.text "y") .text] := rfl
  have hok : ((b.build lookup t).run (.ofCapacity 1)).1.outcome.error = none := rfl
  have hentries : ∀ destination mode value representation,
      .entry destination mode value representation ∈ b.steps lookup →
      Comparable destination [⟨"m"⟩, ⟨"l"⟩] → destination = [⟨"m"⟩, ⟨"l"⟩] ∧ mode = .add := by
    intro destination mode value representation hmem hcomp
    simp only [hsteps, List.mem_cons, reduceCtorEq, BuildStep.entry.injEq, List.not_mem_nil, false_or,
      or_false] at hmem
    rcases hmem with ⟨rfl, -⟩ | ⟨rfl, rfl, -⟩ | ⟨rfl, rfl, -⟩
    · exact absurd hcomp (by decide)
    · exact ⟨rfl, rfl⟩
    · exact ⟨rfl, rfl⟩
  obtain ⟨hput, hadd⟩ := build_reads_back hok
  obtain ⟨x, hx, hthere⟩ := hput [_] _ _ _ _ hsteps (by decide)
  obtain ⟨items, values, hitems, hvalues, hlist⟩ :=
    hadd [⟨"m"⟩, ⟨"l"⟩] ⟨.text "x", .native, by simp [hsteps]⟩ hentries (by decide)
  have hadds : (b.steps lookup).filterMap (BuildStep.addAt? [⟨"m"⟩, ⟨"l"⟩])
      = [(.text "x", .native), (.text "y", .text)] := by decide
  rw [hadds] at hvalues
  obtain ⟨x', _, hx', hrest, rfl⟩ := List.forall₂_cons_left_iff.mp hvalues
  obtain ⟨y', _, hy', hnil, rfl⟩ := List.forall₂_cons_left_iff.mp hrest
  obtain rfl := List.forall₂_nil_left_iff.mp hnil
  obtain rfl : Tree.text "p" = x := Except.ok.inj hx
  obtain rfl : Tree.text "x" = x' := Except.ok.inj hx'
  obtain rfl : Tree.text "y" = y' := Except.ok.inj hy'
  obtain rfl : [Tree.null] = items := Tree.array.inj hitems
  exact ⟨b, lookup, t, _, hok, hthere, hlist⟩

end Builder

end DocumentPath
