import Mathlib
import DocumentPath.Proofs.SteadyRuns

/-!
# Hidden caches

Many things use the cache of a session, in any order: callers ask it for pointers and clear it, and removals
and copies consult it while they run.  None of this shows in what a compiled path or a copier does later.
`Session.amid` puts any uses of the cache before something is compiled, and more between compiling it and
running it; whatever they are, and whatever the capacity of the cache, the results are the same
(`Session.cache_unseen`).
-/

namespace DocumentPath

open Run (Returns Steady)

namespace Session

/-- A use of the cache of a session. -/
inductive Use where
  | get (s : Segment)
  | clear
  | remove (s : Selector) (t : Tree)
  | copy (c : Copier) (source t : Tree)

/-- Carries out a use of the cache, for what it does to the cache alone. -/
def use : Use → Run Unit
  | .get s => do
    let _ ← pointer s
  | .clear => modify fun σ => { σ with cache := σ.cache.clear }
  | .remove s t => do
    let _ ← s.remove t
  | .copy c source t => do
    let _ ← c.copy source t

/-- Carries out uses of the cache, one after another. -/
def useAll : List Use → Run Unit
  | [] => return
  | u :: rest => do
    use u
    useAll rest

/-- Compiles something and runs what was compiled, after some uses of the cache each time. -/
def amid {α β : Type} (before between : List Use) (compiling : Compilation α) (running : α → Run β) :
    Compilation β := do
  useAll before
  let a ← compiling
  useAll between
  running a

/-- A use of the cache leaves it faithful. -/
lemma returns_use (u : Use) : (use u).Returns () := by
  cases u with
  | get s => exact (returns_pointer s).bind (Run.returns_pure ())
  | clear => exact fun σ _ => ⟨rfl, Cache.faithful_clear σ.cache⟩
  | remove s t => exact (s.steady_remove t).returns.bind (Run.returns_pure ())
  | copy c source t => exact (c.steady_copy source t).returns.bind (Run.returns_pure ())

/-- A list of uses comes to nothing but what it leaves in the cache. -/
lemma returns_useAll (uses : List Use) : (useAll uses).Returns () := by
  induction uses with
  | nil => exact Run.returns_pure ()
  | cons u rest ih => exact (returns_use u).bind ih

/-- Whatever uses the cache is put to, steady compiling and running comes to the result that they come to
with an empty cache. -/
theorem returns_amid {α β : Type} {compiling : Compilation α} {running : α → Run β}
    (hcompiling : Steady compiling.run) (hrunning : ∀ a, Steady (running a))
    (before between : List Use) :
    (amid before between compiling running).run.Returns
      (compiling.run.value.map fun a => (running a).value) := by
  have hcompiled := hcompiling.returns
  refine (returns_useAll before).compilation_lift.compilation_bind ?_
  -- the uses in between take place only if there is something to run
  cases hvalue : compiling.run.value with
  | error e =>
    rw [hvalue] at hcompiled
    exact hcompiled.compilation_stop _
  | ok a =>
    rw [hvalue] at hcompiled
    exact hcompiled.compilation_bind ((returns_useAll between).compilation_lift.compilation_bind
      (hrunning a).returns.compilation_lift)

/-- The cache does not show.  In two sessions with caches of any capacities, put to any uses, a removal
through one and the same path detaches the same nodes and leaves the same tree, and a copy by one and the
same specs ends in the same way with the same tree. -/
theorem cache_unseen (n n' : ℕ) (before between before' between' : List Use) :
    (∀ (path : String) (t : Tree),
      ((amid before between (Selector.compileReporting path) (·.remove t)).run.run (.ofCapacity n)).1
        = ((amid before' between' (Selector.compileReporting path) (·.remove t)).run.run
          (.ofCapacity n')).1) ∧
    ∀ (fast : Bool) (specs : List CopySpec) (source t : Tree),
      ((amid before between (Copier.ofSpecs fast specs) (·.copy source t)).run.run (.ofCapacity n)).1
        = ((amid before' between' (Copier.ofSpecs fast specs) (·.copy source t)).run.run
          (.ofCapacity n')).1 := by
  have hn := Cache.faithful_ofCapacity n
  have hn' := Cache.faithful_ofCapacity n'
  constructor
  · intro path t
    have hremoval := returns_amid (Selector.steady_compileReporting path)
      fun s => s.steady_remove t
    exact (hremoval before between _ hn).1.trans (hremoval before' between' _ hn').1.symm
  · intro fast specs source t
    have hcopy := returns_amid (Copier.steady_ofSpecs fast specs) fun c => c.steady_copy source t
    exact (hcopy before between _ hn).1.trans (hcopy before' between' _ hn').1.symm

end Session

end DocumentPath
