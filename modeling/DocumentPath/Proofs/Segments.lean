import Mathlib
import DocumentPath.Segment

/-!
# Segments and indexes

The index of a segment and the segment of an index are inverse: `index?_ofIndex` reads the index back
from its decimal text, and `eq_ofIndex_of_index?` says that no other key is read as that index.  Decimal
texts are compared through `Nat.toDigits`, digit by digit from the left, so that a leading zero is the
only way for two texts to write one number.
-/

namespace DocumentPath

/-! ### Decimal digits -/

/-- The value of decimal digits is what core reads in base ten. -/
lemma ofDigits_eq_ofDigitChars (cs : List Char) : ofDigits cs = Nat.ofDigitChars 10 cs 0 := by
  rw [Nat.ofDigitChars_eq_foldl]
  unfold ofDigits digitValue
  congr 1
  funext n c
  rw [Nat.mul_comm]

/-- The decimal text of a number writes that number. -/
lemma ofDigits_toDigits (n : ℕ) : ofDigits (Nat.toDigits 10 n) = n := by
  rw [ofDigits_eq_ofDigitChars, Nat.ofDigitChars_ten_toDigits]

/-- The value of a decimal digit is below ten. -/
lemma digitValue_lt {c : Char} (hc : c.isDigit) : digitValue c < 10 := by
  have hbounds := Char.isDigit_iff_toNat.mp hc
  unfold digitValue
  simp only [Char.reduceToNat] at hbounds ⊢
  omega

/-- The character of the value of a digit is that digit. -/
lemma digitChar_digitValue {c : Char} (hc : c.isDigit) : Nat.digitChar (digitValue c) = c := by
  have hbounds := Char.isDigit_iff_toNat.mp hc
  apply Char.toNat_inj.mp
  rw [Nat.toNat_digitChar_of_lt_ten (digitValue_lt hc)]
  unfold digitValue
  simp only [Char.reduceToNat] at hbounds ⊢
  omega

/-- Only the digit zero has the value zero. -/
lemma digitValue_pos {c : Char} (hc : c.isDigit) (hzero : c ≠ '0') : 0 < digitValue c := by
  rcases Nat.eq_zero_or_pos (digitValue c) with h | h
  · have := digitChar_digitValue hc
    rw [h] at this
    exact absurd this.symm hzero
  · exact h

/-- Reading on from a positive number continues the decimal text of that number. -/
lemma toDigits_foldl {cs : List Char} (hcs : cs.all Char.isDigit) {n : ℕ} (hn : 0 < n) :
    Nat.toDigits 10 (cs.foldl (fun n c => n * 10 + digitValue c) n) = Nat.toDigits 10 n ++ cs := by
  induction cs generalizing n with
  | nil => simp
  | cons c cs ih =>
    simp only [List.all_cons, Bool.and_eq_true] at hcs
    have hstep : Nat.toDigits 10 (n * 10 + digitValue c) = Nat.toDigits 10 n ++ [c] := by
      have h := Nat.toDigits_append_toDigits (b := 10) (by decide) hn (digitValue_lt hcs.1)
      rw [Nat.toDigits_of_lt_base (digitValue_lt hcs.1), digitChar_digitValue hcs.1] at h
      rw [h, Nat.mul_comm]
    rw [List.foldl_cons, ih hcs.2 (by omega), hstep, List.append_assoc, List.singleton_append]

/-- Digits without a leading zero are the decimal text of the number that they write. -/
lemma toDigits_ofDigits {cs : List Char} (hne : cs ≠ []) (hcs : cs.all Char.isDigit)
    (hlead : cs.length = 1 ∨ cs.head? ≠ some '0') : Nat.toDigits 10 (ofDigits cs) = cs := by
  obtain ⟨c, cs, rfl⟩ := List.exists_cons_of_ne_nil hne
  simp only [List.all_cons, Bool.and_eq_true] at hcs
  have hfirst : Nat.toDigits 10 (digitValue c) = [c] := by
    rw [Nat.toDigits_of_lt_base (digitValue_lt hcs.1), digitChar_digitValue hcs.1]
  unfold ofDigits
  rw [List.foldl_cons, Nat.zero_mul, Nat.zero_add]
  rcases hlead with hlen | hhead
  · have hnil : cs = [] := by simpa using hlen
    rw [hnil, List.foldl_nil, hfirst]
  · have hc : c ≠ '0' := by simpa using hhead
    rw [toDigits_foldl hcs.2 (digitValue_pos hcs.1 hc), hfirst, List.singleton_append]

/-- The decimal text of a positive number has no leading zero. -/
lemma head?_toDigits {n : ℕ} (hn : 0 < n) : (Nat.toDigits 10 n).head? ≠ some '0' := by
  induction n using Nat.strong_induction_on with
  | h n ih =>
    rw [Nat.toDigits_eq_if (by decide)]
    split
    · next hlt =>
      simpa using hn.ne'
    · have hdiv : 0 < n / 10 := by omega
      rw [List.head?_append_of_ne_nil _ Nat.toDigits_ne_nil]
      exact ih (n / 10) (by omega) hdiv

namespace Segment

/-! ### Indexes -/

/-- The key of the segment of an index is its decimal text. -/
lemma toList_key_ofIndex (i : ℕ) : (ofIndex i).key.toList = Nat.toDigits 10 i := by
  rw [ofIndex, Nat.toString_eq_ofList_toDigits, String.toList_ofList]

/-- Different indexes have different segments. -/
theorem ofIndex_injective : Function.Injective ofIndex := by
  intro i j h
  have hkey : Nat.toDigits 10 i = Nat.toDigits 10 j := by
    rw [← toList_key_ofIndex, h, toList_key_ofIndex]
  rw [← ofDigits_toDigits i, hkey, ofDigits_toDigits]

@[simp] lemma ofIndex_inj {i j : ℕ} : ofIndex i = ofIndex j ↔ i = j := ofIndex_injective.eq_iff

/-- The text of an index in range is read as that index. -/
theorem index?_ofIndex {i : ℕ} (hi : i < indexBound) : (ofIndex i).index? = some i := by
  have hdigits : (Nat.toDigits 10 i).all Char.isDigit := by
    rw [List.all_eq_true]
    exact fun c hc => Nat.isDigit_of_mem_toDigits (by decide) le_rfl hc
  have hlead : (Nat.toDigits 10 i).length = 1 ∨ (Nat.toDigits 10 i).head? ≠ some '0' := by
    rcases Nat.eq_zero_or_pos i with rfl | hpos
    · exact Or.inl (by simp)
    · exact Or.inr (head?_toDigits hpos)
  unfold index? readIndex?
  rw [toList_key_ofIndex, ofDigits_toDigits,
    if_pos ⟨Nat.toDigits_ne_nil, hdigits, hlead, hi⟩]

/-- A segment that names an index is the segment of that index. -/
theorem eq_ofIndex_of_index? {s : Segment} {i : ℕ} (h : s.index? = some i) : s = ofIndex i := by
  unfold index? readIndex? at h
  split at h
  · next hc =>
    obtain ⟨hne, hdigits, hlead, -⟩ := hc
    have hi : ofDigits s.key.toList = i := Option.some.inj h
    have hkey : s.key.toList = (ofIndex i).key.toList := by
      rw [toList_key_ofIndex, ← hi, toDigits_ofDigits hne hdigits hlead]
    obtain ⟨key⟩ := s
    exact congrArg Segment.mk (String.toList_injective hkey)
  · exact absurd h (by simp)

/-- An index that a segment names is in range. -/
theorem lt_indexBound_of_index? {s : Segment} {i : ℕ} (h : s.index? = some i) :
    i < indexBound := by
  unfold index? readIndex? at h
  split at h
  · next hc => exact Option.some.inj h ▸ hc.2.2.2
  · exact absurd h (by simp)

end Segment

end DocumentPath
