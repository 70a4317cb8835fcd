import Mathlib
import DocumentPath.Proofs.CopySteps
import DocumentPath.Session

/-!
# Faithful caches

A pointer cache is faithful if the pointer that it remembers for a segment is the pointer of that
segment.  Caches are faithful from the start and stay so, whatever is asked of them and dropped.  A
computation that consults a faithful cache therefore comes to the same result as without one, which
`Run.Returns m a` says of a computation `m` and its result `a`.
-/

namespace DocumentPath

namespace Entries

variable {κ α : Type*} [DecidableEq κ]

/-- Dropping an entry keeps the others in their order. -/
lemma erase_sublist (es : Entries κ α) (k : κ) : (erase es k).Sublist es := by
  induction es with
  | nil => exact List.Sublist.refl _
  | cons e rest ih =>
    obtain ⟨k', v'⟩ := e
    rw [erase]
    split
    · exact List.sublist_cons_self _ _
    · exact ih.cons_cons _

/-- What is left after erasures was there before. -/
lemma mem_of_mem_foldl_erase {ks : List κ} {es : Entries κ α} {e : κ × α}
    (h : e ∈ ks.foldl erase es) : e ∈ es := by
  induction ks generalizing es with
  | nil => exact h
  | cons k ks ih => exact (erase_sublist es k).subset (ih h)

end Entries

namespace Cache

/-- The pointer remembered for a segment is the pointer of that segment. -/
def Faithful (c : Cache) : Prop := ∀ e ∈ c.entries, e.2 = ⟨[e.1]⟩

/-- An empty cache is faithful. -/
lemma faithful_ofCapacity (n : ℕ) : (ofCapacity n).Faithful :=
  fun _ he => absurd he List.not_mem_nil

/-- A cache that has been cleared is faithful. -/
lemma faithful_clear (c : Cache) : c.clear.Faithful := fun _ he => absurd he List.not_mem_nil

/-- A faithful cache answers with the pointer of the segment and stays faithful. -/
theorem Faithful.get {c : Cache} (hc : c.Faithful) (s : Segment) :
    (c.get s).pointer = ⟨[s]⟩ ∧ (c.get s).cache.Faithful := by
  unfold Cache.get
  cases hs : Entries.get? c.entries s with
  | some p =>
    exact ⟨hc (s, p) (Entries.mem_of_get? hs), hc⟩
  | none =>
    refine ⟨rfl, fun e he => ?_⟩
    rcases Entries.mem_insert (Entries.mem_of_mem_foldl_erase he) with rfl | he
    · rfl
    · exact hc e he

end Cache

namespace Run

variable {α β : Type}

/-- The computation comes to the result `a` with every faithful cache, and leaves it faithful. -/
def Returns (m : Run α) (a : α) : Prop :=
  ∀ σ : Session, σ.cache.Faithful → (m.run σ).1 = a ∧ (m.run σ).2.cache.Faithful

/-- A result that is there already is what is come to. -/
lemma returns_pure (a : α) : Returns (pure a) a := fun _ hσ => ⟨rfl, hσ⟩

/-- Two computations in turn. -/
theorem Returns.bind {m : Run α} {f : α → Run β} {a : α} {b : β} (hm : Returns m a)
    (hf : Returns (f a) b) : Returns (m >>= f) b := by
  intro σ hσ
  obtain ⟨ha, hσ'⟩ := hm σ hσ
  have hrun : (m >>= f).run σ = (f a).run (m.run σ).2 := by
    rw [← ha]
    rfl
  rw [hrun]
  exact hf _ hσ'

end Run

/-- The pointer from a faithful cache is that of the segment. -/
theorem Session.returns_pointer (s : Segment) : (Session.pointer s).Returns ⟨[s]⟩ :=
  fun _ hσ => hσ.get s

end DocumentPath
