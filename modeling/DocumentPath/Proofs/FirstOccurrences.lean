import Mathlib

/-!
# First occurrences

`List.eraseDups` keeps every element of a list once, where it comes first.  Injective maps respect this, and
one more element at the end of the list is kept if it is new.
-/

namespace DocumentPath

variable {α β : Type*} [BEq α] [LawfulBEq α] [BEq β] [LawfulBEq β]

/-- Filtering never makes a list longer. -/
lemma length_filter_lt_succ {α : Type*} (f : α → Bool) (L : List α) :
    (L.filter f).length < L.length + 1 :=
  Nat.lt_succ_of_le (List.length_filter_le f L)

/-- No element occurs twice among the first occurrences. -/
lemma nodup_eraseDups : ∀ L : List α, L.eraseDups.Nodup
  | [] => by simp
  | b :: L => by
    have := length_filter_lt_succ (fun c => !c == b) L
    rw [List.eraseDups_cons, List.nodup_cons, List.mem_eraseDups, List.mem_filter]
    exact ⟨by simp, nodup_eraseDups _⟩
termination_by L => L.length

/-- Under an injective function the first occurrences stay the first ones. -/
lemma eraseDups_map {f : α → β} (hf : Function.Injective f) :
    ∀ L : List α, (L.map f).eraseDups = L.eraseDups.map f
  | [] => rfl
  | b :: L => by
    have := length_filter_lt_succ (fun c => !c == b) L
    have hfilter : ((fun c => !c == f b) ∘ f) = fun c => !c == b := by
      funext c
      rw [Function.comp_apply, Bool.eq_iff_iff]
      simp [hf.eq_iff]
    rw [List.map_cons, List.eraseDups_cons, List.eraseDups_cons, List.map_cons, List.filter_map,
      hfilter, eraseDups_map hf]
termination_by L => L.length

/-- The first occurrences in a list with one more element at its end. -/
lemma eraseDups_concat [DecidableEq α] (L : List α) (a : α) :
    (L ++ [a]).eraseDups = if a ∈ L then L.eraseDups else L.eraseDups ++ [a] := by
  rw [List.eraseDups_append, List.removeAll]
  by_cases h : a ∈ L
  · simp [h]
  · simp [h, List.eraseDups_cons]

end DocumentPath
