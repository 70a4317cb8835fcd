import Mathlib
import DocumentPath.Proofs.Matches
import DocumentPath.Proofs.SelectorTexts

/-!
# Reading along concatenated paths

`Step.followAll` lists the nodes that a list of steps leads to, one step after another: a key leads to a child,
a wildcard to all children, a descent to all nodes.  Following two lists of steps one after the other is
following the second from every node that the first leads to (`Step.followAll_append`).

The stages of a selector bundle neighbouring keys, and the empty path has a literal stage without a key.
Neither changes what is read: reading along stages is following their steps (`Stage.matches_eq_followAll`).
Where a path is cut in two therefore makes no difference, and reads compose as their paths do
(`Selector.all_append`).
-/

namespace DocumentPath

namespace Step

/-- The nodes that a step leads to. -/
def follow : Step → Tree → List Tree
  | .key s, t => (t.child? s).toList
  | .wildcard, t => t.children
  | .descent, t => t.nodes

/-- The nodes that a list of steps leads to, from each node in the order of the step before. -/
def followAll : List Step → Tree → List Tree
  | [], t => [t]
  | step :: path, t => (step.follow t).flatMap (followAll path)

/-- The second of two lists of steps is followed from every node that the first leads to. -/
theorem followAll_append (path path' : List Step) (t : Tree) :
    followAll (path ++ path') t = (followAll path t).flatMap (followAll path') := by
  induction path generalizing t with
  | nil => rw [List.nil_append, followAll, List.flatMap_singleton]
  | cons step path ih =>
    rw [List.cons_append, followAll, followAll, List.flatMap_assoc]
    exact List.flatMap_congr fun c _ => ih c

/-- A single step is followed as it is. -/
lemma followAll_singleton (step : Step) (t : Tree) : followAll [step] t = step.follow t := by
  rw [followAll]
  exact List.flatMap_singleton' _

/-- Keys lead to the node at their location, if there is one. -/
lemma followAll_keys (segments : List Segment) (t : Tree) :
    followAll (segments.map .key) t = (t.at? segments).toList := by
  induction segments generalizing t with
  | nil => rfl
  | cons s segments ih =>
    rw [List.map_cons, followAll, follow, Tree.at?_cons]
    cases t.child? s with
    | none => rfl
    | some c => simp [ih]

end Step

namespace Stage

open Step (followAll)

/-- Reading along a first stage goes on from the nodes that its steps lead to. -/
lemma matches_cons_eq {stage : Stage} (h : stage ≠ .terminal) (rest : List Stage) (t : Tree) :
    Stage.matches (stage :: rest) t
      = (followAll (steps [stage]) t).flatMap (Stage.matches rest) := by
  cases stage with
  | terminal => exact absurd rfl h
  | literal p =>
    have hkeys : followAll (steps [.literal p]) t = (p.at? t).toList := by
      rw [steps, List.flatMap_singleton]
      exact Step.followAll_keys p.segments t
    rw [Stage.matches, hkeys]
    cases p.at? t <;> simp
  | wildcard =>
    rw [Stage.matches, steps, List.flatMap_singleton, Step.followAll_singleton, Step.follow]
  | descent =>
    rw [Stage.matches, steps, List.flatMap_singleton, Step.followAll_singleton, Step.follow]

/-- Reading along stages is following their steps, however these are bundled. -/
theorem matches_eq_followAll {front : List Stage} (h : .terminal ∉ front) (t : Tree) :
    Stage.matches (front ++ [.terminal]) t = followAll (steps front) t := by
  induction front generalizing t with
  | nil => rfl
  | cons stage front ih =>
    rw [List.mem_cons, not_or] at h
    have hsteps : steps (stage :: front) = steps [stage] ++ steps front := by
      rw [← steps_append, List.singleton_append]
    rw [List.cons_append, matches_cons_eq (Ne.symm h.1), hsteps, Step.followAll_append]
    exact List.flatMap_congr fun c _ => ih h.2 c

end Stage

namespace Selector

open Step (followAll)

lemma all_eq_followAll {s : Selector} {steps : List Step} (h : s.stages = stagesOf steps) :
    s.all = followAll steps := by
  obtain ⟨front, hfront, hterminal, -⟩ := Stage.exists_stagesOf_eq steps
  have hsteps : Stage.steps front = steps := by
    rw [← Stage.steps_stagesOf steps, hfront, Stage.steps_append]
    exact (List.append_nil _).symm
  funext t
  rw [all_eq_matches, h, hfront, Stage.matches_eq_followAll hterminal, hsteps]

/-- The empty path reads the root, which no step is needed for. -/
lemma all_eq_followAll_nil {s : Selector} (h : s.stages = [.literal .root, .terminal]) :
    s.all = followAll [] := by
  have hterminal : Stage.terminal ∉ [.literal .root] := by simp
  funext t
  rw [all_eq_matches, h]
  exact Stage.matches_eq_followAll hterminal t

/-- The path of a selector is the text of steps, and reading through the selector is following them. -/
theorem exists_followAll_of_compile {path : String} {s : Selector} (hs : compile path = .ok s) :
    ∃ steps : List Step, steps.flatMap (fun step => '/' :: step.chars) = path.toList ∧
      (∀ step ∈ steps, step.NoAsterisks) ∧ s.all = followAll steps := by
  obtain ⟨-, ⟨rfl, hstages⟩ | ⟨steps, -, hstages, hpath, hplain⟩⟩ := compile_eq_ok_iff.mp hs
  · exact ⟨[], rfl, by simp, all_eq_followAll_nil hstages⟩
  · exact ⟨steps, hpath, hplain, all_eq_followAll hstages⟩

/-- Any text of steps is the path of a selector. -/
theorem exists_compile_of_steps {path : String} {steps : List Step}
    (hpath : steps.flatMap (fun step => '/' :: step.chars) = path.toList)
    (hplain : ∀ step ∈ steps, step.NoAsterisks) :
    ∃ s, compile path = .ok s ∧ s.all = followAll steps := by
  rcases eq_or_ne steps [] with rfl | hne
  · have hempty : path = "" := String.toList_eq_nil_iff.mp hpath.symm
    exact ⟨⟨path, [.literal .root, .terminal]⟩, compile_eq_ok_iff.mpr ⟨rfl, .inl ⟨hempty, rfl⟩⟩,
      all_eq_followAll_nil rfl⟩
  · exact ⟨⟨path, stagesOf steps⟩,
      compile_eq_ok_iff.mpr ⟨rfl, .inr ⟨steps, hne, rfl, hpath, hplain⟩⟩, all_eq_followAll rfl⟩

/-- Two paths written one after the other are a path, and reading along it is reading along the second from
every node that the first matches, in order and as often as the first matches it. -/
theorem all_append {path path' : String} {s s' : Selector} (hs : compile path = .ok s)
    (hs' : compile path' = .ok s') :
    ∃ s'', compile (path ++ path') = .ok s'' ∧ ∀ t, s''.all t = (s.all t).flatMap s'.all := by
  obtain ⟨steps, hpath, hplain, hall⟩ := exists_followAll_of_compile hs
  obtain ⟨steps', hpath', hplain', hall'⟩ := exists_followAll_of_compile hs'
  have happend : (steps ++ steps').flatMap (fun step => '/' :: step.chars)
      = (path ++ path').toList := by
    rw [List.flatMap_append, hpath, hpath', String.toList_append]
  have hplain'' : ∀ step ∈ steps ++ steps', step.NoAsterisks := fun step hstep =>
    (List.mem_append.mp hstep).elim (hplain step) (hplain' step)
  obtain ⟨s'', hs'', hall''⟩ := exists_compile_of_steps happend hplain''
  refine ⟨s'', hs'', fun t => ?_⟩
  rw [hall'', hall, hall', Step.followAll_append]

/-- The keys `a` and `b` on the two sides of the cut share a stage of `/**/a/b/**`, through which two nodes of
`{"a": {"b": [null]}}` are read. -/
theorem all_append_within_literal : ∃ s s' s'' : Selector,
    compile "/**/a" = .ok s ∧ compile "/b/**" = .ok s' ∧ compile ("/**/a" ++ "/b/**") = .ok s'' ∧
    s''.stages = [.descent, .literal ⟨[⟨"a"⟩, ⟨"b"⟩]⟩, .descent, .terminal] ∧
    (∀ t, s''.all t = (s.all t).flatMap s'.all) ∧
    s''.all (.map [("a", .map [("b", .array [.null])])]) = [.array [.null], .null] := by
  have hs : compile "/**/a" = .ok ⟨"/**/a", [.descent, .literal ⟨[⟨"a"⟩]⟩, .terminal]⟩ := rfl
  have hs' : compile "/b/**" = .ok ⟨"/b/**", [.literal ⟨[⟨"b"⟩]⟩, .descent, .terminal]⟩ := rfl
  obtain ⟨s'', hs'', hall⟩ := all_append hs hs'
  have hjoined : compile ("/**/a" ++ "/b/**") = .ok ⟨"/**/a/b/**",
      [.descent, .literal ⟨[⟨"a"⟩, ⟨"b"⟩]⟩, .descent, .terminal]⟩ := rfl
  obtain rfl := Except.ok.inj (hjoined.symm.trans hs'')
  exact ⟨_, _, _, hs, hs', hs'', rfl, hall, rfl⟩

end Selector

end DocumentPath
