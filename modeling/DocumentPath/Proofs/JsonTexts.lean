import Mathlib
import DocumentPath.Json.Printer
import DocumentPath.Json.Reader
import DocumentPath.Proofs.Segments

/-!
# Reading JSON text back

The JSON text of a tree is read as a value of the same shape, whatever follows it, as long as that ends the
value (`Json.Ends`): a number goes on as far as it can.  `Tree.ReadsAs t j` says so of one tree and the value
read, with enough steps for the reader, and there is one lemma for each kind of tree.  Those of arrays and
maps ask that the children be read, and go along the list of the children after the first.  Floats are left
out.
-/

namespace DocumentPath

-- `^` stands for the built-in power, also next to that of a monoid
attribute [local instance (2000)] instPowNat

/-! ### Numerals -/

/-- The numeral of an integer. -/
def Numeral.ofInt : ℤ → Numeral
  | .ofNat m => ⟨false, Nat.toDigits 10 m, [], none⟩
  | .negSucc m => ⟨true, Nat.toDigits 10 (m + 1), [], none⟩

/-- The numeral of an integer is worth that integer, unless it is out of range. -/
lemma Numeral.value?_ofInt {n : ℤ} (h : -2 ^ (63 : ℕ) ≤ n) (h' : n < 2 ^ (64 : ℕ)) :
    (ofInt n).value? = some (.int n) := by
  cases n with
  | ofNat m =>
    have hm : m < 2 ^ (64 : ℕ) := by
      norm_num at h' ⊢
      omega
    simp only [value?, ofInt, ofDigits_toDigits, Bool.false_eq_true, if_false, true_and, if_pos hm]
    rfl
  | negSucc m =>
    have hm : m + 1 ≤ 2 ^ (63 : ℕ) := by
      norm_num at h ⊢
      omega
    simp only [value?, ofInt, ofDigits_toDigits, if_true, true_and, if_pos (And.intro m.succ_pos hm)]
    rfl

/-- A natural number is written by its decimal digits. -/
lemma toList_toString_ofNat (m : ℕ) : (toString (Int.ofNat m)).toList = Nat.toDigits 10 m := by
  have htext : toString (Int.ofNat m) = toString m := rfl
  rw [htext, Nat.toString_eq_ofList_toDigits, String.toList_ofList]

/-- A negative number is written by a minus and the digits of its opposite. -/
lemma toList_toString_negSucc (m : ℕ) :
    (toString (Int.negSucc m)).toList = '-' :: Nat.toDigits 10 (m + 1) := by
  have htext : toString (Int.negSucc m) = "-" ++ toString (m + 1) := rfl
  rw [htext, Nat.toString_eq_ofList_toDigits, String.toList_append, String.toList_ofList,
    String.toList_ofList]
  rfl

/-- The decimal digits of a number begin with a digit. -/
lemma exists_toDigits_eq_cons (m : ℕ) : ∃ c cs, Nat.toDigits 10 m = c :: cs ∧ c.isDigit := by
  obtain ⟨c, cs, hcs⟩ := List.exists_cons_of_ne_nil (Nat.toDigits_ne_nil (n := m) (b := 10))
  exact ⟨c, cs, hcs, Nat.isDigit_of_mem_toDigits (by decide) le_rfl (hcs ▸ List.mem_cons_self)⟩

/-- The text of an integer starts with a sign or a digit. -/
lemma exists_toString_eq_cons (n : ℤ) :
    ∃ c cs, (toString n).toList = c :: cs ∧ (c = '-' ∨ c.isDigit) := by
  cases n with
  | ofNat m =>
    obtain ⟨c, cs, hcs, hc⟩ := exists_toDigits_eq_cons m
    exact ⟨c, cs, (toList_toString_ofNat m).trans hcs, .inr hc⟩
  | negSucc m => exact ⟨_, _, toList_toString_negSucc m, .inl rfl⟩

namespace Json

variable {rest : List Char}

/-- What may follow a value: nothing, or a text that goes on with a comma or closes an array or an object. -/
inductive Ends : List Char → Prop
  | nil : Ends []
  | comma (rest : List Char) : Ends (',' :: rest)
  | bracket (rest : List Char) : Ends (']' :: rest)
  | brace (rest : List Char) : Ends ('\x7d' :: rest)

/-- Where a numeral ends there is no fraction. -/
lemma readFraction?_of_ends (h : Ends rest) : readFraction? rest = some ([], rest) := by
  cases h <;> rfl

/-- Where a numeral ends there is no exponent. -/
lemma readPower?_of_ends (h : Ends rest) : readPower? rest = some (none, rest) := by
  cases h <;> rfl

/-- Where a numeral ends there is no further digit. -/
lemma takeWhile_isDigit_of_ends (h : Ends rest) : rest.takeWhile Char.isDigit = [] := by
  cases h <;> rfl

/-- Where a numeral ends no digit is passed over. -/
lemma dropWhile_isDigit_of_ends (h : Ends rest) : rest.dropWhile Char.isDigit = rest := by
  cases h <;> rfl

/-- The decimal digits of a number are read as its whole part. -/
lemma readWhole?_toDigits (n : ℕ) (h : Ends rest) :
    readWhole? (Nat.toDigits 10 n ++ rest) = some (Nat.toDigits 10 n, rest) := by
  have hdigits : ∀ c ∈ Nat.toDigits 10 n, c.isDigit := fun c hc =>
    Nat.isDigit_of_mem_toDigits (by decide) le_rfl hc
  unfold readWhole?
  rw [List.takeWhile_append_of_pos hdigits, List.dropWhile_append_of_pos hdigits,
    takeWhile_isDigit_of_ends h, dropWhile_isDigit_of_ends h, List.append_nil]
  rcases Nat.eq_zero_or_pos n with rfl | hn
  · rfl
  · have hhead := head?_toDigits hn
    simp only
    split
    · exact absurd ‹_› Nat.toDigits_ne_nil
    · next hzero =>
      rw [hzero] at hhead
      exact absurd rfl hhead
    · rfl

/-- A written integer is read as its numeral. -/
lemma readNumeral?_toString (n : ℤ) (h : Ends rest) :
    readNumeral? ((toString n).toList ++ rest) = some (.ofInt n, rest) := by
  cases n with
  | ofNat m =>
    obtain ⟨c, cs, hcs, hc⟩ := exists_toDigits_eq_cons m
    have hminus : c ≠ '-' := by
      rintro rfl
      exact absurd hc (by decide)
    have hwhole := readWhole?_toDigits m h
    rw [hcs, List.cons_append] at hwhole
    rw [toList_toString_ofNat, hcs, List.cons_append]
    simp [readNumeral?, hminus, hwhole, readFraction?_of_ends h, readPower?_of_ends h, Numeral.ofInt, hcs]
  | negSucc m =>
    rw [toList_toString_negSucc, List.cons_append]
    simp [readNumeral?, readWhole?_toDigits _ h, readFraction?_of_ends h, readPower?_of_ends h, Numeral.ofInt]

/-! ### Strings -/

/-- A hexadecimal digit is read as its value. -/
lemma hexValue?_digitChar {n : ℕ} (h : n < 16) : hexValue? (Nat.digitChar n) = some n := by
  revert n
  decide

/-- Four hexadecimal digits are read as the number that they write. -/
lemma readHex?_hexDigits4 {n : ℕ} (h : n < 65536) (cs : List Char) :
    readHex? 4 (hexDigits4 n ++ cs) = some (n, cs) := by
  have hdigit (m : ℕ) : hexValue? (Nat.digitChar (m % 16)) = some (m % 16) :=
    hexValue?_digitChar (Nat.mod_lt m (by decide))
  simp only [hexDigits4, List.map_cons, List.map_nil, List.cons_append, List.nil_append, readHex?,
    hdigit, Option.bind_eq_bind, Option.bind_some, Option.pure_def]
  refine congrArg some (Prod.ext ?_ rfl)
  simp only
  omega

/-- A character is read back from what stands for it in a string. -/
lemma readString?_jsonChar (c : Char) (fuel : ℕ) (cs : List Char) :
    readString? (fuel + 1) (jsonChar c ++ cs)
      = (readString? fuel cs).map fun p => (c.toNat :: p.1, p.2) := by
  have hescape {cs' : List Char} (h : readEscape? cs' = some (c.toNat, cs)) :
      readString? (fuel + 1) ('\\' :: cs')
        = (readString? fuel cs).map fun p => (c.toNat :: p.1, p.2) := by
    simp only [readString?, h, Option.bind_eq_bind, Option.bind_some]
    cases readString? fuel cs <;> rfl
  unfold jsonChar
  split_ifs with hquote hslash hb hf hn hr ht hsmall
  · exact hescape (by rw [hquote]; rfl)
  · exact hescape (by rw [hslash]; rfl)
  · exact hescape (by rw [hb]; rfl)
  · exact hescape (by rw [hf]; rfl)
  · exact hescape (by rw [hn]; rfl)
  · exact hescape (by rw [hr]; rfl)
  · exact hescape (by rw [ht]; rfl)
  · exact hescape (readHex?_hexDigits4 (by omega) cs)
  · rw [List.singleton_append, readString?]
    · rw [if_neg hsmall]
      cases readString? fuel cs <;> rfl
    · exact hquote
    · exact hslash

/-- Every character is written by at least one. -/
lemma jsonChar_ne_nil (c : Char) : jsonChar c ≠ [] := by
  unfold jsonChar
  split_ifs <;> simp

/-- The characters of a text are read back, up to the closing quote. -/
lemma readString?_flatMap_jsonChar (s : List Char) (cs : List Char) {fuel : ℕ}
    (hfuel : (s.flatMap jsonChar).length < fuel) :
    readString? fuel (s.flatMap jsonChar ++ '"' :: cs) = some (s.map Char.toNat, cs) := by
  induction s generalizing fuel with
  | nil =>
    obtain ⟨fuel, rfl⟩ := Nat.exists_eq_add_one_of_ne_zero (Nat.ne_zero_of_lt hfuel)
    rfl
  | cons c rest ih =>
    have hlength := List.length_pos_iff.mpr (jsonChar_ne_nil c)
    rw [List.flatMap_cons, List.length_append] at hfuel
    obtain ⟨fuel, rfl⟩ := Nat.exists_eq_add_one_of_ne_zero (Nat.ne_zero_of_lt hfuel)
    rw [List.flatMap_cons, List.append_assoc, readString?_jsonChar, ih (by omega)]
    rfl

/-- A written string begins with its quote and ends with another. -/
lemma jsonString_append (s : String) (cs : List Char) :
    jsonString s ++ cs = '"' :: (s.toList.flatMap jsonChar ++ '"' :: cs) := by
  rw [jsonString, List.append_assoc, List.singleton_append, List.cons_append]

/-- A text is read back from a string. -/
lemma readText?_jsonString (s : String) (cs : List Char) :
    readText? (s.toList.flatMap jsonChar ++ '"' :: cs) = some (some s, cs) := by
  have hfuel : (s.toList.flatMap jsonChar).length
      < (s.toList.flatMap jsonChar ++ '"' :: cs).length.succ := by
    rw [List.length_append]
    omega
  rw [readText?, readString?_flatMap_jsonChar s.toList cs hfuel]
  simp [characters?_map_toNat]

/-! ### Steps of the reader -/

/-- What starts with a sign or a digit is read as a number. -/
lemma readValue?_numeral {c : Char} (hc : c = '-' ∨ c.isDigit) (cs : List Char) (fuel : ℕ) :
    readValue? (fuel + 1) (c :: cs) = (readNumeral? (c :: cs)).map fun p => (.number p.1, p.2) := by
  have hne : ∀ d ∈ [' ', '\t', '\n', '\r', 'n', 't', 'f', '"', '[', '\x7b'], c ≠ d := by
    rintro d hd rfl
    revert hc
    fin_cases hd <;> decide
  have hskip : skipBlank (c :: cs) = c :: cs := by
    refine List.dropWhile_cons_of_neg ?_
    simp only [List.forall_mem_cons] at hne
    simp [hne]
  rw [readValue?, hskip]
  split
  case h_7 => cases readNumeral? (c :: cs) <;> rfl
  all_goals
    rename_i hhead
    exact absurd (List.cons.inj hhead).1 (hne _ (by decide))

/-- A written integer is read as a number. -/
lemma readValue?_toString (n : ℤ) (h : Ends rest) (fuel : ℕ) :
    readValue? (fuel + 1) ((toString n).toList ++ rest) = some (.number (.ofInt n), rest) := by
  have hread := readNumeral?_toString n h
  obtain ⟨c, cs, hcs, hc⟩ := exists_toString_eq_cons n
  rw [hcs, List.cons_append] at hread ⊢
  rw [readValue?_numeral hc, hread]
  rfl

/-- Nothing blank stands before a written string. -/
lemma skipBlank_jsonString (s : String) (cs : List Char) :
    skipBlank (jsonString s ++ cs) = '"' :: (s.toList.flatMap jsonChar ++ '"' :: cs) :=
  jsonString_append s cs

/-- A written string is read as its text. -/
lemma readValue?_jsonString (s : String) (rest : List Char) (fuel : ℕ) :
    readValue? (fuel + 1) (jsonString s ++ rest) = some (.text (some s), rest) := by
  rw [readValue?, skipBlank_jsonString]
  simp only [readText?_jsonString, Option.bind_eq_bind, Option.bind_some, Option.pure_def]

/-- Past the blank characters there are none to pass over. -/
lemma skipBlank_skipBlank (cs : List Char) : skipBlank (skipBlank cs) = skipBlank cs :=
  List.dropWhile_idempotent _ cs

/-- Blank characters before a value make no difference. -/
lemma readValue?_skipBlank (fuel : ℕ) (cs : List Char) :
    readValue? fuel (skipBlank cs) = readValue? fuel cs := by
  cases fuel with
  | zero => rfl
  | succ fuel => rw [readValue?, readValue?, skipBlank_skipBlank]

/-- Blank characters before an item make no difference. -/
lemma readItems?_skipBlank (fuel : ℕ) (cs : List Char) :
    readItems? fuel (skipBlank cs) = readItems? fuel cs := by
  cases fuel with
  | zero => rfl
  | succ fuel => rw [readItems?, readItems?, readValue?_skipBlank]

/-- No value starts with a closing bracket. -/
lemma readValue?_bracket {cs rest : List Char} (h : skipBlank cs = ']' :: rest) (fuel : ℕ) :
    readValue? fuel cs = none := by
  cases fuel with
  | zero => rfl
  | succ fuel => rw [readValue?, h]; rfl

/-- An array with an item is read item by item. -/
lemma readValue?_array {cs : List Char} {fuel : ℕ} {j : Json} {js : List Json}
    (h : readItems? fuel cs = some (j :: js, rest)) :
    readValue? (fuel + 1) ('[' :: cs) = some (.array (j :: js), rest) := by
  rw [readValue?, show skipBlank ('[' :: cs) = '[' :: cs from rfl]
  simp only
  split
  · next hclosed =>
    cases fuel with
    | zero => cases h
    | succ fuel =>
      rw [readItems?, readValue?_bracket hclosed] at h
      cases h
  · rw [readItems?_skipBlank, h]
    rfl
variable {fuel : ℕ} {cs cs' : List Char} {j : Json}

/-- A value before the closing bracket is the last item. -/
lemma readItems?_last (h : readValue? fuel cs = some (j, ']' :: rest)) :
    readItems? (fuel + 1) cs = some ([j], rest) := by
  rw [readItems?, h]
  rfl

/-- A value before a comma is followed by further items. -/
lemma readItems?_more {js : List Json} (h : readValue? fuel cs = some (j, ',' :: cs'))
    (h' : readItems? fuel cs' = some (js, rest)) :
    readItems? (fuel + 1) cs = some (j :: js, rest) := by
  have hskip : skipBlank (',' :: cs') = ',' :: cs' := rfl
  simp only [readItems?, h, Option.bind_eq_bind, Option.bind_some, hskip, h', Option.pure_def]

/-- A value before the closing brace is that of the last field. -/
lemma readFields?_last (key : String) (h : readValue? fuel cs = some (j, '\x7d' :: rest)) :
    readFields? (fuel + 1) (jsonString key ++ ':' :: cs) = some ([(some key, j)], rest) := by
  have hcolon : skipBlank (':' :: cs) = ':' :: cs := rfl
  rw [readFields?, skipBlank_jsonString]
  simp only [readText?_jsonString, Option.bind_eq_bind, Option.bind_some, hcolon, h]
  rfl

/-- A value before a comma is that of a field that is followed by further ones. -/
lemma readFields?_more (key : String) {js : List (Option String × Json)}
    (h : readValue? fuel cs = some (j, ',' :: cs'))
    (h' : readFields? fuel cs' = some (js, rest)) :
    readFields? (fuel + 1) (jsonString key ++ ':' :: cs) = some ((some key, j) :: js, rest) := by
  have hcolon : skipBlank (':' :: cs) = ':' :: cs := rfl
  have hcomma : skipBlank (',' :: cs') = ',' :: cs' := rfl
  rw [readFields?, skipBlank_jsonString]
  simp only [readText?_jsonString, Option.bind_eq_bind, Option.bind_some, hcolon, h, hcomma, h',
    Option.pure_def]

/-- An object with a field is read field by field. -/
lemma readValue?_object (key : String) {js : List (Option String × Json)}
    (h : readFields? fuel (jsonString key ++ cs) = some (js, rest)) :
    readValue? (fuel + 1) ('\x7b' :: (jsonString key ++ cs)) = some (.object js, rest) := by
  have hbrace : skipBlank ('\x7b' :: (jsonString key ++ cs)) = '\x7b' :: (jsonString key ++ cs) := rfl
  rw [jsonString_append] at h
  rw [readValue?, hbrace]
  simp only [skipBlank_jsonString]
  split
  · next hclosed => exact absurd (List.cons.inj hclosed).1 (by decide)
  · rw [h]
    rfl

end Json

/-! ### Trees -/

namespace Tree

open Json

/-- With enough steps the text of the tree is read as the value, whatever follows that ends it. -/
def ReadsAs (t : Tree) (j : Json) : Prop :=
  ∀ (rest : List Char) (fuel : ℕ), Ends rest → 2 * t.jsonChars.length ≤ fuel →
    readValue? fuel (t.jsonChars ++ rest) = some (j, rest)

/-- The first step of reading a text that is not empty. -/
lemma readsAs_of_succ {t : Tree} {j : Json} (hne : t.jsonChars ≠ [])
    (h : ∀ rest fuel, Ends rest → 2 * t.jsonChars.length ≤ fuel + 1 →
      readValue? (fuel + 1) (t.jsonChars ++ rest) = some (j, rest)) : t.ReadsAs j := by
  intro rest fuel hrest hfuel
  have hlength := List.length_pos_iff.mpr hne
  obtain ⟨fuel, rfl⟩ := Nat.exists_eq_add_one_of_ne_zero (n := fuel) (by omega)
  exact h rest fuel hrest hfuel

/-- Null is read back. -/
lemma readsAs_null : null.ReadsAs .null :=
  readsAs_of_succ (by simp [jsonChars]) fun _ _ _ _ => rfl

/-- A boolean is read back. -/
lemma readsAs_bool (b : Bool) : (bool b).ReadsAs (.bool b) := by
  cases b with
  | false => exact readsAs_of_succ (by simp [jsonChars]) fun _ _ _ _ => rfl
  | true => exact readsAs_of_succ (by simp [jsonChars]) fun _ _ _ _ => rfl

/-- An integer is read back as its numeral. -/
lemma readsAs_int (n : ℤ) : (number (.int n)).ReadsAs (.number (.ofInt n)) := by
  obtain ⟨c, cs, hcs, -⟩ := exists_toString_eq_cons n
  refine readsAs_of_succ ?_ fun rest fuel hrest _ => readValue?_toString n hrest fuel
  rw [jsonChars, Number.json, hcs]
  exact List.cons_ne_nil c cs

/-- A text is read back. -/
lemma readsAs_text (s : String) : (text s).ReadsAs (.text (some s)) :=
  readsAs_of_succ (by simp [jsonChars, jsonString]) fun rest fuel _ _ =>
    readValue?_jsonString s rest fuel

/-- The items of an array are read back, with what closes the array. -/
lemma readItems?_jsonItems {items : List Tree} {js : List Json} (h : List.Forall₂ ReadsAs items js)
    {t : Tree} {j : Json} (ht : t.ReadsAs j) (rest : List Char) {fuel : ℕ}
    (hfuel : 2 * (t.jsonChars.length + (jsonItems items).length) ≤ fuel) :
    readItems? fuel (t.jsonChars ++ (jsonItems items ++ rest)) = some (j :: js, rest) := by
  induction h generalizing t j fuel with
  | nil =>
    rw [jsonItems, List.length_singleton] at hfuel
    obtain ⟨fuel, rfl⟩ := Nat.exists_eq_add_one_of_ne_zero (n := fuel) (by omega)
    exact readItems?_last (ht _ fuel (.bracket rest) (by omega))
  | @cons t' j' items js ht' _ ih =>
    rw [jsonItems, List.cons_append, List.length_cons, List.length_append] at hfuel
    obtain ⟨fuel, rfl⟩ := Nat.exists_eq_add_one_of_ne_zero (n := fuel) (by omega)
    rw [jsonItems, List.cons_append, List.cons_append, List.append_assoc]
    exact readItems?_more (ht _ fuel (.comma _) (by omega)) (ih ht' (by omega))

/-- An array is read back if its items are. -/
lemma readsAs_array {items : List Tree} {js : List Json} (h : List.Forall₂ ReadsAs items js) :
    (array items).ReadsAs (.array js) := by
  cases h with
  | nil => exact readsAs_of_succ (by simp [jsonChars]) fun _ _ _ _ => rfl
  | @cons t j items js ht h =>
    refine readsAs_of_succ (by simp [jsonChars]) fun rest fuel _ hfuel => ?_
    rw [jsonChars, List.cons_append, List.length_cons, List.length_append] at hfuel
    rw [jsonChars, List.cons_append, List.cons_append, List.append_assoc]
    exact readValue?_array (readItems?_jsonItems h ht rest (by omega))

/-- The field is read with its key. -/
inductive FieldReadsAs : String × Tree → String × Json → Prop
  | intro (key : String) {t : Tree} {j : Json} (h : t.ReadsAs j) : FieldReadsAs (key, t) (key, j)

/-- The fields of an object are read back, with what closes the object. -/
lemma readFields?_jsonFields {fields : List (String × Tree)} {js : List (String × Json)}
    (h : List.Forall₂ FieldReadsAs fields js) (key : String) {t : Tree} {j : Json}
    (ht : t.ReadsAs j) (rest : List Char) {fuel : ℕ}
    (hfuel : 2 * (t.jsonChars.length + (jsonFields fields).length) ≤ fuel) :
    readFields? fuel (jsonString key ++ ':' :: (t.jsonChars ++ (jsonFields fields ++ rest)))
      = some ((some key, j) :: js.map (Prod.map some id), rest) := by
  induction h generalizing key t j fuel with
  | nil =>
    rw [jsonFields, List.length_singleton] at hfuel
    obtain ⟨fuel, rfl⟩ := Nat.exists_eq_add_one_of_ne_zero (n := fuel) (by omega)
    exact readFields?_last key (ht _ fuel (.brace rest) (by omega))
  | @cons _ _ fields js hf _ ih =>
    obtain ⟨key', ht'⟩ := hf
    simp only [jsonFields, List.cons_append, List.length_cons, List.length_append] at hfuel
    obtain ⟨fuel, rfl⟩ := Nat.exists_eq_add_one_of_ne_zero (n := fuel) (by omega)
    rw [jsonFields]
    simp only [List.cons_append, List.append_assoc]
    exact readFields?_more key (ht _ fuel (.comma _) (by omega)) (ih key' ht' (by omega))

/-- A map is read back if its fields are. -/
lemma readsAs_map {fields : List (String × Tree)} {js : List (String × Json)}
    (h : List.Forall₂ FieldReadsAs fields js) :
    (map fields).ReadsAs (.object (js.map (Prod.map some id))) := by
  cases h with
  | nil => exact readsAs_of_succ (by simp [jsonChars]) fun _ _ _ _ => rfl
  | @cons _ _ fields js hf h =>
    obtain ⟨key, ht⟩ := hf
    refine readsAs_of_succ (by simp [jsonChars]) fun rest fuel _ hfuel => ?_
    simp only [jsonChars, List.cons_append, List.append_assoc, List.length_cons,
      List.length_append] at hfuel ⊢
    exact readValue?_object key (readFields?_jsonFields h key ht rest (by omega))

/-- What is read of a whole text. -/
theorem ReadsAs.read? {t : Tree} {j : Json} (h : t.ReadsAs j) : Json.read? t.json = some j := by
  have hread := h [] (2 * t.jsonChars.length + 2) .nil (by omega)
  rw [List.append_nil] at hread
  rw [Json.read?, json, String.toList_ofList, hread]
  rfl

end Tree

end DocumentPath
