import Mathlib
import DocumentPath.Proofs.PathTexts
import DocumentPath.Proofs.Selections

/-!
# Texts of selectors

The stages of a selector are another form of its path.  `Selector.compile_eq_ok_iff` says which path and
stages go together: the stages are those of a list of steps, and the steps, each written after a slash, are
the path.  From the stages the path can therefore be read off again (`Selector.join_text_stages`), and
selectors of different paths have different stages.

A path without an asterisk is compiled into the one literal stage of the pointer that it is read as
(`Selector.compile_of_no_asterisk`), or else is refused for the same fault.
-/

namespace DocumentPath

/-! ### Texts of steps and stages -/

/-- A step as it is written in a path. -/
def Step.chars : Step → List Char
  | .key s => s.chars
  | .wildcard => ['*']
  | .descent => ['*', '*']

/-- No key holds an asterisk; the asterisks of wildcards and descents are their own. -/
def Step.NoAsterisks : Step → Prop
  | .key s => '*' ∉ s.key.toList
  | .wildcard | .descent => True

/-- The part of a path that a stage stands for. -/
def Stage.text : Stage → String
  | .literal p => p.text
  | .wildcard => "/*"
  | .descent => "/**"
  | .terminal => ""

/-- A step is written without a slash. -/
lemma Step.slash_notMem_chars (step : Step) : '/' ∉ step.chars := by
  cases step with
  | key s => exact s.slash_notMem_chars
  | wildcard | descent => decide

namespace Stage

/-- A stage is written by its steps, each after a slash. -/
lemma toList_text (stage : Stage) :
    stage.text.toList = (steps [stage]).flatMap fun step => '/' :: step.chars := by
  cases stage with
  | literal p => simp [text, Pointer.text, Pointer.charsOf, steps, List.flatMap_map, Step.chars]
  | wildcard | descent | terminal => rfl

/-- The text of stages is that of their steps, each after a slash. -/
lemma toList_join_text (stages : List Stage) : (String.join (stages.map text)).toList
    = (steps stages).flatMap fun step => '/' :: step.chars := by
  induction stages with
  | nil => rfl
  | cons stage stages ih =>
    rw [List.map_cons, String.join_cons, String.toList_append, ih, toList_text, ← List.flatMap_append,
      ← steps_append, List.singleton_append]

/-- Neighbouring keys share one literal stage. -/
lemma isChain_stagesOf (path : List Step) : (Selector.stagesOf path).IsChain
    fun a b => ∀ p q, a = .literal p → b ≠ .literal q := by
  induction path with
  | nil => exact .singleton _
  | cons step path ih =>
    cases step with
    | wildcard | descent =>
      rw [Selector.stagesOf, List.isChain_cons]
      exact ⟨by simp, ih⟩
    | key s =>
      rw [Selector.stagesOf]
      split
      · next p stages hstages =>
        rw [hstages, List.isChain_cons] at ih
        rw [List.isChain_cons]
        exact ⟨fun b hb _ q _ => ih.1 b hb p q rfl, ih.2⟩
      · next hother =>
        rw [List.isChain_cons]
        refine ⟨fun b hb _ q _ hq => ?_, ih⟩
        obtain ⟨stages, hstages⟩ := List.head?_eq_some_iff.mp (Option.mem_def.mp hb)
        exact hother q stages (hq ▸ hstages)

/-- A path of keys alone is one literal stage. -/
lemma stagesOf_map_key {segments : List Segment} (h : segments ≠ []) :
    Selector.stagesOf (segments.map .key) = [.literal ⟨segments⟩, .terminal] := by
  induction segments with
  | nil => exact absurd rfl h
  | cons s segments ih =>
    cases segments with
    | nil => rfl
    | cons s' segments => rw [List.map_cons, Selector.stagesOf, ih (List.cons_ne_nil _ _)]

end Stage

namespace Selector

/-! ### Compiled paths -/

/-- Without asterisks a step is a segment, and is refused as one. -/
lemma readStep_of_asterisk_notMem {raw : List Char} (h : '*' ∉ raw) :
    readStep raw = (Pointer.readSegment raw).map .key := by
  have hone : raw ≠ ['*'] := by
    rintro rfl
    simp at h
  have htwo : raw ≠ ['*', '*'] := by
    rintro rfl
    simp at h
  rw [readStep, if_neg hone, if_neg htwo, if_neg h, Pointer.readSegment, if_neg h]

/-- A step is read from what writes it, if it has no asterisks of its own. -/
lemma readStep_eq_ok_iff {raw : List Char} (hraw : '/' ∉ raw) {step : Step} :
    readStep raw = .ok step ↔ step.chars = raw ∧ step.NoAsterisks := by
  by_cases hstar : '*' ∈ raw
  · have hkey (s : Segment) : ¬ (s.chars = raw ∧ '*' ∉ s.key.toList) := by
      rintro ⟨rfl, hs⟩
      exact hs (s.asterisk_mem_chars_iff.mp hstar)
    unfold readStep
    split_ifs with hone htwo
    all_goals cases step <;> simp_all [Step.chars, Step.NoAsterisks, eq_comm]
  · rw [readStep_of_asterisk_notMem hstar, map_eq_ok_iff]
    cases step with
    | key s => simpa [Step.chars, Step.NoAsterisks] using Pointer.readSegment_eq_ok_iff hraw
    | wildcard | descent =>
      simp only [reduceCtorEq, and_false, exists_false, false_iff]
      rintro ⟨rfl, -⟩
      exact hstar (by simp [Step.chars])

/-- What can be read as a step: one asterisk, two, or an escaped text without any. -/
lemma exists_readStep_iff {raw : List Char} : (∃ step, readStep raw = .ok step) ↔
    raw = ['*'] ∨ raw = ['*', '*'] ∨ '*' ∉ raw ∧ Escaped raw := by
  unfold readStep
  split
  · next h => simp [h]
  · next h =>
    split
    · next h' => simp [h']
    · next h' =>
      split
      · next hstar => simp [h, h', hstar]
      · next hstar => simp [h, h', hstar, map_eq_ok_iff, Segment.exists_ofRaw_iff]

/-- A path with characters is read step by step. -/
lemma stagesOfChars_of_ne_nil {cs : List Char} (h : cs ≠ []) :
    stagesOfChars cs = (readSegments readStep cs).map stagesOf := by
  cases cs with
  | nil => exact absurd rfl h
  | cons c cs =>
    rw [stagesOfChars, readSegments]
    · cases rawSegments (c :: cs) <;> rfl
    · exact List.cons_ne_nil c cs

/-- Compiling a path is reading its stages and keeping the path. -/
lemma compile_eq_ok_iff_stagesOfChars {path : String} {s : Selector} :
    compile path = .ok s ↔ s.path = path ∧ stagesOfChars path.toList = .ok s.stages := by
  obtain ⟨path', stages⟩ := s
  unfold compile
  cases stagesOfChars path.toList <;> simp [eq_comm]

/-- A selector of a path that is not empty has the stages of steps that, each written after a slash, are the
path. -/
theorem compile_eq_ok_iff {path : String} {s : Selector} : compile path = .ok s ↔ s.path = path ∧
    (path = "" ∧ s.stages = [.literal .root, .terminal] ∨
      ∃ steps : List Step, steps ≠ [] ∧ s.stages = stagesOf steps ∧
        steps.flatMap (fun step => '/' :: step.chars) = path.toList ∧
        ∀ step ∈ steps, step.NoAsterisks) := by
  rw [compile_eq_ok_iff_stagesOfChars]
  refine and_congr_right fun _ => ?_
  rcases eq_or_ne path "" with rfl | hne
  · have hsteps (steps : List Step) (h : steps ≠ []) :
        steps.flatMap (fun step => '/' :: step.chars) ≠ "".toList := by
      cases steps with
      | nil => exact absurd rfl h
      | cons step steps => simp
    constructor
    · exact fun h => .inl ⟨rfl, (Except.ok.inj h).symm⟩
    · rintro (⟨-, h⟩ | ⟨steps, hne, -, h, -⟩)
      · rw [h]
        rfl
      · exact absurd h (hsteps steps hne)
  · rw [stagesOfChars_of_ne_nil (by simpa using hne), map_eq_ok_iff]
    simp only [readSegments_eq_ok_iff Step.slash_notMem_chars fun raw hraw step =>
      readStep_eq_ok_iff hraw, hne, false_and, false_or]
    exact exists_congr fun steps => ⟨fun ⟨⟨h, hpath, hstar⟩, hstages⟩ => ⟨h, hstages.symm, hpath, hstar⟩,
      fun ⟨h, hstages, hpath, hstar⟩ => ⟨⟨h, hpath, hstar⟩, hstages.symm⟩⟩

/-- The paths that can be compiled. -/
lemma exists_compile_iff {path : String} : (∃ s, compile path = .ok s) ↔
    path = "" ∨ ∃ body, path.toList = '/' :: body ∧ ∀ raw ∈ body.splitOn '/',
      raw = ['*'] ∨ raw = ['*', '*'] ∨ '*' ∉ raw ∧ Escaped raw := by
  have hstages : (∃ s, compile path = .ok s) ↔ ∃ stages, stagesOfChars path.toList = .ok stages := by
    simp only [compile_eq_ok_iff_stagesOfChars]
    exact ⟨fun ⟨s, _, h⟩ => ⟨s.stages, h⟩, fun ⟨stages, h⟩ => ⟨⟨path, stages⟩, rfl, h⟩⟩
  rw [hstages]
  rcases eq_or_ne path "" with rfl | hne
  · simp [stagesOfChars]
  · have hread : (∃ stages, stagesOfChars path.toList = .ok stages) ↔
        ∃ steps, readSegments readStep path.toList = .ok steps := by
      simp [stagesOfChars_of_ne_nil (mt String.toList_eq_nil_iff.mp hne), map_eq_ok_iff]
    rw [hread, exists_readSegments_iff]
    simp only [exists_readStep_iff, hne, false_or, ← splitSlashes_eq_splitOn]
    constructor
    · rintro ⟨raws, hraw, hgood⟩
      unfold rawSegments at hraw
      split at hraw
      · next body hbody => exact ⟨body, hbody, by rwa [Except.ok.inj hraw]⟩
      · exact absurd hraw (by simp)
    · rintro ⟨body, hbody, hgood⟩
      exact ⟨_, by rw [hbody, rawSegments], hgood⟩

/-- The path can be read off the stages. -/
theorem join_text_stages {path : String} {s : Selector} (hs : compile path = .ok s) :
    String.join (s.stages.map Stage.text) = path := by
  rw [← String.toList_inj, Stage.toList_join_text]
  obtain ⟨-, ⟨rfl, hstages⟩ | ⟨steps, -, hstages, hpath, -⟩⟩ := compile_eq_ok_iff.mp hs
  · rw [hstages]
    rfl
  · rw [hstages, Stage.steps_stagesOf, hpath]

/-- Without asterisks the steps of a text are its segments, and are refused as these are. -/
lemma readSegments_readStep {cs : List Char} (h : '*' ∉ cs) : readSegments readStep cs
    = (readSegments Pointer.readSegment cs).map (List.map .key) := by
  cases hraw : rawSegments cs with
  | error fault => simp [readSegments, hraw, Except.bind, Except.map]
  | ok raws =>
    rw [readSegments_of_rawSegments hraw, readSegments_of_rawSegments hraw]
    exact mapUntilFault_eq_map fun raw hmem =>
      readStep_of_asterisk_notMem (notMem_of_rawSegments hraw h hmem)

/-- A path without asterisks is read as a pointer is. -/
lemma stagesOfChars_of_no_asterisk {cs : List Char} (h : '*' ∉ cs) :
    stagesOfChars cs = (Pointer.ofChars cs).map fun p => [.literal p, .terminal] := by
  rcases eq_or_ne cs [] with rfl | hne
  · rfl
  · rw [stagesOfChars_of_ne_nil hne, Pointer.ofChars_of_ne_nil hne, readSegments_readStep h]
    cases hread : readSegments Pointer.readSegment cs with
    | error fault => rfl
    | ok segments =>
      obtain ⟨hsegments, -⟩ := (readSegments_eq_ok_iff Segment.slash_notMem_chars
        fun raw hraw s => Pointer.readSegment_eq_ok_iff hraw).mp hread
      exact congrArg Except.ok (Stage.stagesOf_map_key hsegments)

/-- A path without an asterisk is compiled into the literal stage of the pointer that it is read as, or is
refused as it is refused for a pointer. -/
theorem compile_of_no_asterisk {path : String} (h : '*' ∉ path.toList) :
    compile path = (Pointer.parse path).map fun p => ⟨path, [.literal p, .terminal]⟩ := by
  rw [compile, stagesOfChars_of_no_asterisk h, Pointer.parse]
  cases Pointer.ofChars path.toList <;> rfl

/-- A selector without wildcards and descents has the path of a pointer. -/
lemma asterisk_notMem_of_isAbsolute {path : String} {s : Selector} (hs : compile path = .ok s)
    (h : s.isAbsolute) : '*' ∉ path.toList := by
  obtain ⟨-, ⟨rfl, -⟩ | ⟨steps, -, hstages, hpath, hplain⟩⟩ := compile_eq_ok_iff.mp hs
  · simp
  · rw [← hpath]
    intro hmem
    obtain ⟨step, hstep, hstar⟩ := List.mem_flatMap.mp hmem
    have hplain := hplain step hstep
    rw [← Stage.steps_stagesOf steps, ← hstages] at hstep
    obtain ⟨stage, hstage, hstep⟩ := List.mem_flatMap.mp hstep
    have habsolute := List.all_eq_true.mp h stage hstage
    cases stage with
    | literal p =>
      obtain ⟨key, -, rfl⟩ := List.mem_map.mp hstep
      exact hplain (key.asterisk_mem_chars_iff.mp (by simpa [Step.chars] using hstar))
    | wildcard | descent => simp at habsolute
    | terminal => exact absurd hstep List.not_mem_nil

/-- A selector that comes to a single pointer does not fan out. -/
lemma isAbsolute_of_isSome_asPointer? {s : Selector} (h : s.asPointer?.isSome) : s.isAbsolute := by
  obtain ⟨p, hp⟩ := Option.isSome_iff_exists.mp h
  rw [isAbsolute, asPointer?_eq_some_iff.mp hp]
  rfl

/-- A selector without asterisks comes to a single pointer. -/
lemma isSome_asPointer?_of_no_asterisk {path : String} {s : Selector} (hs : compile path = .ok s)
    (h : '*' ∉ path.toList) : s.asPointer?.isSome := by
  rw [compile_of_no_asterisk h] at hs
  obtain ⟨p, -, rfl⟩ := map_eq_ok_iff.mp hs
  rfl

/-- The stages of a selector are laid out as they are made from its path. -/
structure WellFormed (s : Selector) : Prop where
  /-- The one terminal is the last stage. -/
  terminal_last : ∃ front, s.stages = front ++ [.terminal] ∧ .terminal ∉ front
  /-- No two literals are neighbours. -/
  literals_apart : ∀ p q, ¬ [.literal p, .literal q] <:+: s.stages
  /-- Only the literal of the empty path is empty. -/
  literal_nonempty : ∀ p, .literal p ∈ s.stages → p.segments = [] → s.path = ""
  /-- The stages one after another are the path. -/
  join_text : String.join (s.stages.map Stage.text) = s.path

/-- The stages of a selector that has been compiled are laid out as its path. -/
lemma wellFormed_of_compile {path : String} {s : Selector} (hs : compile path = .ok s) : s.WellFormed := by
  obtain ⟨rfl, hstages⟩ := compile_eq_ok_iff.mp hs
  have hterminal : ∃ front, s.stages = front ++ [.terminal] ∧ .terminal ∉ front ∧
      ∀ p, .literal p ∈ front → p.segments = [] → s.path = "" := by
    obtain ⟨hpath, hroot⟩ | ⟨steps, -, hsteps, -, -⟩ := hstages
    · exact ⟨[.literal .root], hroot, by simp, fun _ _ _ => hpath⟩
    · obtain ⟨front, hfront, hterminal, hliteral⟩ := Stage.exists_stagesOf_eq steps
      exact ⟨front, hsteps.trans hfront, hterminal, fun p hp h => absurd h (hliteral p hp)⟩
  have hchain : s.stages.IsChain fun a b => ∀ p q, a = .literal p → b ≠ .literal q := by
    obtain ⟨-, hroot⟩ | ⟨steps, -, hsteps, -, -⟩ := hstages
    · rw [hroot, List.isChain_pair]
      simp
    · exact hsteps ▸ Stage.isChain_stagesOf steps
  obtain ⟨front, hfront, hlast, hliteral⟩ := hterminal
  refine ⟨⟨front, hfront, hlast⟩, fun p q hinfix => ?_, fun p hp => ?_, join_text_stages hs⟩
  · have hpair := List.IsChain.infix hchain hinfix
    exact List.isChain_pair.mp hpair p q rfl rfl
  · exact hliteral p (by simpa [hfront] using hp)

/-- Two paths have the same stages only if they are the same. -/
lemma sameStages_iff {path path' : String} {s s' : Selector} (hs : compile path = .ok s)
    (hs' : compile path' = .ok s') : s.sameStages s' ↔ path = path' := by
  rw [sameStages, beq_iff_eq]
  constructor
  · intro h
    rw [← join_text_stages hs, ← join_text_stages hs', h]
  · rintro rfl
    rw [Except.ok.inj (hs.symm.trans hs')]

/-- Which paths are accepted, what their stages are, and that a path without asterisks is accepted and refused
as for a pointer. -/
theorem compile_faithful (path : String) :
    ((∃ s, compile path = .ok s) ↔
      path = "" ∨ ∃ body, path.toList = '/' :: body ∧ ∀ raw ∈ body.splitOn '/',
        raw = ['*'] ∨ raw = ['*', '*'] ∨ '*' ∉ raw ∧ Escaped raw) ∧
    (∀ s, compile path = .ok s → s.path = path ∧ s.WellFormed ∧
      (s.isAbsolute ↔ s.asPointer?.isSome) ∧ (s.asPointer?.isSome ↔ '*' ∉ path.toList) ∧
      ∀ path' s', compile path' = .ok s' → (s.sameStages s' ↔ path = path')) ∧
    ('*' ∉ path.toList →
      (∃ p s, Pointer.parse path = .ok p ∧ compile path = .ok s ∧ s.asPointer? = some p) ∨
        ∃ e, Pointer.parse path = .error e ∧ compile path = .error e) := by
  refine ⟨exists_compile_iff, fun s hs => ⟨?_, wellFormed_of_compile hs, ?_, ?_, ?_⟩, fun h => ?_⟩
  · exact (compile_eq_ok_iff.mp hs).1
  · exact ⟨fun h => isSome_asPointer?_of_no_asterisk hs (asterisk_notMem_of_isAbsolute hs h),
      isAbsolute_of_isSome_asPointer?⟩
  · exact ⟨fun h => asterisk_notMem_of_isAbsolute hs (isAbsolute_of_isSome_asPointer? h),
      isSome_asPointer?_of_no_asterisk hs⟩
  · exact fun path' s' hs' => sameStages_iff hs hs'
  · rw [compile_of_no_asterisk h]
    cases Pointer.parse path with
    | ok p => exact .inl ⟨p, _, rfl, rfl, rfl⟩
    | error e => exact .inr ⟨e, rfl, rfl⟩

/-- The path `/a/b~1c/*//**` has two neighbouring keys, a wildcard, an empty key and a descent; `/a//0` is the
path of a pointer, and `/a/~2` is refused for the same escape by both readings. -/
theorem compile_faithful_mixed : ∃ s s' : Selector,
    compile "/a/b~1c/*//**" = .ok s ∧ compile "/a//0" = .ok s' ∧
    s.stages = [.literal ⟨[⟨"a"⟩, ⟨"b/c"⟩]⟩, .wildcard, .literal ⟨[⟨""⟩]⟩, .descent, .terminal] ∧
    s.WellFormed ∧ (s.sameStages s' ↔ "/a/b~1c/*//**" = "/a//0") ∧
    '*' ∉ "/a//0".toList ∧ '*' ∉ "/a/~2".toList ∧
    (∃ p s, Pointer.parse "/a//0" = .ok p ∧ compile "/a//0" = .ok s ∧ s.asPointer? = some p) ∧
    ∃ e, Pointer.parse "/a/~2" = .error e ∧ compile "/a/~2" = .error e := by
  have hs : compile "/a/b~1c/*//**" = .ok ⟨"/a/b~1c/*//**",
      [.literal ⟨[⟨"a"⟩, ⟨"b/c"⟩]⟩, .wildcard, .literal ⟨[⟨""⟩]⟩, .descent, .terminal]⟩ := rfl
  have hs' : compile "/a//0" = .ok ⟨"/a//0", [.literal ⟨[⟨"a"⟩, ⟨""⟩, ⟨"0"⟩]⟩, .terminal]⟩ := rfl
  have hread : Pointer.parse "/a//0" = .ok ⟨[⟨"a"⟩, ⟨""⟩, ⟨"0"⟩]⟩ := rfl
  have hrefused : Pointer.parse "/a/~2" = .error (.malformed "/a/~2" (.invalidEscape '2')) := rfl
  have hplain : '*' ∉ "/a//0".toList := by decide
  have hbad : '*' ∉ "/a/~2".toList := by decide
  obtain ⟨-, hwf, -, -, hsame⟩ := (compile_faithful "/a/b~1c/*//**").2.1 _ hs
  refine ⟨_, _, hs, hs', rfl, hwf, hsame _ _ hs', hplain, hbad, ?_, ?_⟩
  · refine ((compile_faithful _).2.2 hplain).resolve_right ?_
    rintro ⟨e, he, -⟩
    simp [hread] at he
  · refine ((compile_faithful _).2.2 hbad).resolve_left ?_
    rintro ⟨p, s, hp, -⟩
    simp [hrefused] at hp

end Selector

end DocumentPath
