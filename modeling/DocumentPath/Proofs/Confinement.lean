import Mathlib
import DocumentPath.Builder.Run
import DocumentPath.Copier.Run
import DocumentPath.Proofs.ChangeRuns
import DocumentPath.Proofs.UntouchedLocations

/-!
# Engines write below their targets

A copier and a builder change a destination only at and below the targets of their specs, however their
runs end (`engines_leave_untouched`).  A spec opens its target and puts what becomes of the container back
in its place, and whatever is done to the container, this leaves everything beside the target alone; a run
of specs is then an instance of `Run.relates_each` and its like.
-/

namespace DocumentPath

open DocumentPath.Tree (Untouched)

/-- Whatever is put in the place of a container that has been opened, everything beside it is left
alone. -/
lemma Pointer.untouched_putAt_openContainer (p : Pointer) (t v : Tree) :
    Untouched {p.segments} t ((p.openContainer t).tree.putAt p.segments v) :=
  (p.untouched_openContainer t).trans (Tree.untouched_putAt _ _ _)

/-! ### Copiers -/

/-- A copy spec leaves everything beside its target alone. -/
theorem CompiledCopySpec.untouched_copy (fast : Bool) (source : Tree) (s : CompiledCopySpec)
    (t : Tree) (σ : Session) :
    Untouched {s.target.segments} t ((s.copy fast source t).run σ).1.tree := by
  unfold copy
  simp only
  split
  · exact s.target.untouched_putAt_openContainer t _
  · exact s.target.untouched_openContainer t

namespace Copier

/-- The locations of the targets. -/
def targets (c : Copier) : Set (List Segment) := {p | ∃ s ∈ c.specs, p = s.target.segments}

/-- A copier leaves everything untouched beside its targets. -/
theorem untouched_copy (c : Copier) (source t : Tree) (σ : Session) :
    Untouched c.targets t ((c.copy source t).run σ).1.tree := by
  obtain ⟨σ', hrun⟩ := Run.run_asOperation .copier "copy" c.size Outcome.error (c.copyAll source t) σ
  rw [copy, hrun]
  refine Run.relates_each (Untouched.refl _) Untouched.trans (fun s hs t σ => ?_) t σ'
  refine (s.untouched_copy c.fast source t σ).mono ?_
  rintro p rfl
  exact ⟨s, hs, rfl⟩

end Copier

/-! ### Builders -/

namespace CompiledBuildSpec

/-- Whatever is done at the target, everything beside it is left alone. -/
lemma untouched_atTarget (s : CompiledBuildSpec) (t : Tree) (f : Tree → Outcome PathError) :
    Untouched {s.target.segments} t (s.atTarget t f).tree := by
  unfold atTarget
  simp only
  split
  · exact s.target.untouched_putAt_openContainer t _
  · exact s.target.untouched_openContainer t

/-- Placing the literals of a spec leaves everything untouched beside its target. -/
lemma untouched_placeLiterals (s : CompiledBuildSpec) (t : Tree) :
    Untouched {s.target.segments} t (s.placeLiterals t).tree := by
  unfold placeLiterals
  split
  · exact Untouched.refl _ t
  · exact s.untouched_atTarget t _

end CompiledBuildSpec

namespace Builder

/-- The locations of the targets. -/
def targets (b : Builder) : Set (List Segment) := {p | ∃ s ∈ b.specs, p = s.target.segments}

/-- The target of a spec is among the targets of the builder. -/
lemma singleton_subset_targets {b : Builder} {s : CompiledBuildSpec} (hs : s ∈ b.specs) :
    {s.target.segments} ⊆ b.targets := by
  rintro p rfl
  exact ⟨s, hs, rfl⟩

/-- A builder leaves everything untouched beside its targets. -/
theorem untouched_build (b : Builder) (lookup : Lookup) (t : Tree) (σ : Session) :
    Untouched b.targets t ((b.build lookup t).run σ).1.outcome.tree := by
  have hspecs : ∀ {f : CompiledBuildSpec → Tree → Outcome PathError},
      (∀ s t, Untouched {s.target.segments} t (f s t).tree) →
      ∀ t, Untouched b.targets t (Outcome.sequence t (b.specs.map f)).tree := by
    intro f hf t
    refine Outcome.relates_sequence (Untouched.refl _) Untouched.trans (fun g hg t => ?_) t
    obtain ⟨s, hs, rfl⟩ := List.mem_map.mp hg
    exact (hf s t).mono (singleton_subset_targets hs)
  rw [outcome_build]
  exact Outcome.relates_andThen (R := Untouched _) Untouched.trans
    (hspecs CompiledBuildSpec.untouched_placeLiterals t)
    (hspecs fun s t => s.untouched_atTarget t _)

end Builder

/-- However a run of a copier or of a builder ends, a location comparable with none of the targets holds
what it held before; if it held nothing, it holds nothing afterwards either, or a null that pads an array
up to an index on the way to a target. -/
theorem engines_leave_untouched :
    (∀ (c : Copier) (source t : Tree) (σ : Session) (q : List Segment),
      (∀ s ∈ c.specs, ¬ Comparable s.target.segments q) →
      (∀ u, t.at? q = some u → ((c.copy source t).run σ).1.tree.at? q = some u) ∧
      (t.at? q = none → ((c.copy source t).run σ).1.tree.at? q = none ∨
        ((c.copy source t).run σ).1.tree.Pads c.targets q)) ∧
    (∀ (b : Builder) (lookup : Lookup) (t : Tree) (σ : Session) (q : List Segment),
      (∀ s ∈ b.specs, ¬ Comparable s.target.segments q) →
      (∀ u, t.at? q = some u → ((b.build lookup t).run σ).1.outcome.tree.at? q = some u) ∧
      (t.at? q = none → ((b.build lookup t).run σ).1.outcome.tree.at? q = none ∨
        ((b.build lookup t).run σ).1.outcome.tree.Pads b.targets q)) := by
  refine ⟨fun c source t σ q hq => ?_, fun b lookup t σ q hq => ?_⟩
  · have hbeside : ∀ p ∈ c.targets, ¬ Comparable p q := by
      rintro p ⟨s, hs, rfl⟩
      exact hq s hs
    have huntouched := c.untouched_copy source t σ
    exact ⟨fun u => huntouched.kept q u hbeside, huntouched.padded q hbeside⟩
  · have hbeside : ∀ p ∈ b.targets, ¬ Comparable p q := by
      rintro p ⟨s, hs, rfl⟩
      exact hq s hs
    have huntouched := b.untouched_build lookup t σ
    exact ⟨fun u => huntouched.kept q u hbeside, huntouched.padded q hbeside⟩

/-- A copier and a builder with the targets `/l/2` and `/x` go to work on `{"l": [1], "x": true}`.  The copier
copies `/a` of a source, excludes one of its fields and converts the other; the builder places a literal and
two looked-up values.  Both then fail, since `/x` is a value, and leave the element of the list, and a null at
`/l/1` that pads the list up to `/l/2`. -/
theorem engines_leave_untouched_padding : ∃ (c : Copier) (b : Builder) (source t : Tree)
    (lookup : Lookup) (σ : Session),
    t = .map [("l", .array [.number (.int 1)]), ("x", .bool true)] ∧
    source = .map [("a", .map [("k", .text "7"), ("y", .null)])] ∧
    ((c.copy source t).run σ).1.tree = .map [("l", .array [.number (.int 1), .null,
      .map [("k", .number (.int 7))]]), ("x", .bool true)] ∧
    ((c.copy source t).run σ).1.error ≠ none ∧
    ((c.copy source t).run σ).1.tree.at? [⟨"l"⟩, ⟨"0"⟩] = some (.number (.int 1)) ∧
    ((c.copy source t).run σ).1.tree.Pads c.targets [⟨"l"⟩, ⟨"1"⟩] ∧
    ((b.build lookup t).run σ).1.outcome.tree = .map [("l", .array [.number (.int 1), .null,
      .map [("n", .null), ("v", .number (.int 3)), ("w", .array [.number (.int 3)])]]),
      ("x", .bool true)] ∧
    ((b.build lookup t).run σ).1.outcome.error ≠ none ∧
    ((b.build lookup t).run σ).1.outcome.tree.at? [⟨"l"⟩, ⟨"0"⟩] = some (.number (.int 1)) ∧
    ((b.build lookup t).run σ).1.outcome.tree.Pads b.targets [⟨"l"⟩, ⟨"1"⟩] := by
  let key (k : String) : Selector := ⟨"/" ++ k, [.literal ⟨[⟨k⟩]⟩, .terminal]⟩
  let record : CompiledRecord := ⟨"/a", none, key "a", [(⟨"", [.literal .root, .terminal]⟩, none)],
    [key "y"], [(key "k", .convert .toInt64)]⟩
  let c : Copier := ⟨true, [⟨⟨[⟨"l"⟩, ⟨"2"⟩]⟩, [record]⟩, ⟨⟨[⟨"x"⟩]⟩, []⟩]⟩
  let b : Builder := ⟨[⟨⟨[⟨"l"⟩, ⟨"2"⟩]⟩, [⟨.null, ⟨[⟨"n"⟩]⟩⟩],
      [⟨⟨"three", .integer⟩, .put, ⟨[⟨"v"⟩]⟩⟩, ⟨⟨"three", .integer⟩, .add, ⟨[⟨"w"⟩]⟩⟩]⟩,
    ⟨⟨[⟨"x"⟩]⟩, [], []⟩]⟩
  let t : Tree := .map [("l", .array [.number (.int 1)]), ("x", .bool true)]
  let source : Tree := .map [("a", .map [("k", .text "7"), ("y", .null)])]
  let lookup : Lookup := fun q => if q.key = "three" then some (.int 3) else none
  let σ : Session := .ofCapacity 1
  have hcopied : ((c.copy source t).run σ).1.tree = .map [("l", .array [.number (.int 1), .null,
      .map [("k", .number (.int 7))]]), ("x", .bool true)] := by decide
  have hbuilt : ((b.build lookup t).run σ).1.outcome.tree = .map [("l", .array [.number (.int 1), .null,
      .map [("n", .null), ("v", .number (.int 3)), ("w", .array [.number (.int 3)])]]),
      ("x", .bool true)] := by decide
  have hcopy := fun q => engines_leave_untouched.1 c source t σ q
  have hbuild := fun q => engines_leave_untouched.2 b lookup t σ q
  refine ⟨c, b, source, t, lookup, σ, rfl, rfl, hcopied, by decide,
    (hcopy _ (by decide)).1 _ (by decide), ?_, hbuilt, by decide,
    (hbuild _ (by decide)).1 _ (by decide), ?_⟩
  · refine ((hcopy _ (by decide)).2 (by decide)).resolve_left ?_
    rw [hcopied]
    decide
  · refine ((hbuild _ (by decide)).2 (by decide)).resolve_left ?_
    rw [hbuilt]
    decide

end DocumentPath
