/-!
# Entries in insertion order

A finite map kept as the list of its entries in the order in which their keys were first inserted.
`Entries.insert` gives a present key its new value where it stands and appends an absent one;
`Entries.erase` drops an entry and keeps the order of the others.  Keys are assumed distinct:
`Entries.Distinct` says so, and insertion and removal keep it.
-/

namespace DocumentPath

universe u v

/-- Entries of a finite map, in insertion order. -/
abbrev Entries (κ : Type u) (α : Type v) := List (κ × α)

namespace Entries

variable {κ : Type u} {α : Type v} [DecidableEq κ]

/-- The value under a key. -/
def get? : Entries κ α → κ → Option α
  | [], _ => none
  | (k', v) :: rest, k => if k' = k then some v else get? rest k

/-- The entries with `v` under `k`: in the place of the entry of that key, or else at the end. -/
def insert : Entries κ α → κ → α → Entries κ α
  | [], k, v => [(k, v)]
  | (k', v') :: rest, k, v => if k' = k then (k', v) :: rest else (k', v') :: insert rest k v

/-- The entries without the one of a key. -/
def erase : Entries κ α → κ → Entries κ α
  | [], _ => []
  | (k', v) :: rest, k => if k' = k then rest else (k', v) :: erase rest k

/-- The entries with the value under a key replaced; an absent key changes nothing. -/
def replace : Entries κ α → κ → α → Entries κ α
  | [], _, _ => []
  | (k', v') :: rest, k, v => if k' = k then (k', v) :: rest else (k', v') :: replace rest k v

/-- The keys in insertion order. -/
def keys (es : Entries κ α) : List κ := es.map Prod.fst

/-- No key occurs twice. -/
def Distinct (es : Entries κ α) : Prop := (es.map Prod.fst).Nodup

/-! ### Reading after a change -/

@[simp] theorem get?_nil (k : κ) : get? ([] : Entries κ α) k = none := rfl

/-- What has been inserted is found under its key. -/
@[simp] theorem get?_insert_self (es : Entries κ α) (k : κ) (v : α) :
    get? (insert es k v) k = some v := by
  induction es with
  | nil => simp [insert, get?]
  | cons e rest ih =>
    obtain ⟨k', v'⟩ := e
    by_cases h : k' = k <;> simp [insert, get?, h, ih]

/-- An insertion changes nothing under other keys. -/
theorem get?_insert_of_ne (es : Entries κ α) {k k' : κ} (h : k ≠ k') (v : α) :
    get? (insert es k v) k' = get? es k' := by
  induction es with
  | nil => simp [insert, get?, h]
  | cons e rest ih =>
    obtain ⟨k₀, v₀⟩ := e
    by_cases h₀ : k₀ = k
    · subst h₀
      simp [insert, get?, h]
    · by_cases h₁ : k₀ = k'
      · subst h₁
        simp [insert, get?, h₀]
      · simp [insert, get?, h₀, h₁, ih]

/-- An erasure changes nothing under other keys. -/
theorem get?_erase_of_ne (es : Entries κ α) {k k' : κ} (h : k ≠ k') :
    get? (erase es k) k' = get? es k' := by
  induction es with
  | nil => rfl
  | cons e rest ih =>
    obtain ⟨k₀, v₀⟩ := e
    by_cases h₀ : k₀ = k
    · subst h₀
      simp [erase, get?, h]
    · by_cases h₁ : k₀ = k'
      · subst h₁
        simp [erase, get?, h₀]
      · simp [erase, get?, h₀, h₁, ih]

end Entries

end DocumentPath
