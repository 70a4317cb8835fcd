import Mathlib
import DocumentPath.Pointer.Basic

/-!
# Texts of paths

The grammar of the texts that are read as pointers.  A text is empty or a sequence of escaped segments, each
after a slash (`rawSegments_eq_ok_iff`); an escaped segment is one in which every tilde is followed by `0` or
`1` (`Escaped`, `exists_unescape_iff`), and it is the text of exactly one segment
(`Segment.ofRaw_eq_ok_iff`).

`Pointer.parse_eq_ok_iff` puts the two together: reading and writing are inverse on the pointers in whose
keys no asterisk occurs.
-/

namespace DocumentPath

/-! ### Segments between slashes -/

/-- Splitting at slashes is splitting a list at a separator. -/
lemma splitSlashes_eq_splitOn (cs : List Char) : splitSlashes cs = cs.splitOn '/' := by
  induction cs with
  | nil => rfl
  | cons c cs ih =>
    rw [splitSlashes, List.splitOn_cons_eq_if_modifyHead, ih]
    by_cases hc : c = '/'
    · simp [hc]
    · rw [if_neg hc, if_neg (by simpa using hc)]
      cases hsplit : cs.splitOn '/' with
      | nil => exact absurd hsplit (List.splitOn_ne_nil _ _)
      | cons raw raws => rfl

/-- Splitting at slashes gives at least one piece. -/
lemma splitSlashes_ne_nil (cs : List Char) : splitSlashes cs ≠ [] := by
  rw [splitSlashes_eq_splitOn]
  exact List.splitOn_ne_nil _ _

/-- No slash is left between the slashes. -/
lemma slash_notMem_of_mem_splitSlashes {cs raw : List Char} (h : raw ∈ splitSlashes cs) :
    '/' ∉ raw := by
  induction cs generalizing raw with
  | nil => simp_all [splitSlashes]
  | cons c cs ih =>
    rw [splitSlashes] at h
    split at h
    · rcases List.mem_cons.mp h with rfl | h
      · exact List.not_mem_nil
      · exact ih h
    · next hc =>
      split at h
      · next hnil => exact absurd hnil (splitSlashes_ne_nil cs)
      · next first raws hsplit =>
        rcases List.mem_cons.mp h with rfl | h
        · have hfirst := ih (hsplit ▸ List.mem_cons_self)
          simpa [Ne.symm hc] using hfirst
        · exact ih (hsplit ▸ List.mem_cons_of_mem _ h)

/-- Segments written each after a slash are, after the first slash, segments with slashes between. -/
lemma flatMap_slash {raws : List (List Char)} (h : raws ≠ []) :
    raws.flatMap ('/' :: ·) = '/' :: ['/'].intercalate raws := by
  induction raws with
  | nil => exact absurd rfl h
  | cons raw raws ih =>
    cases raws with
    | nil => simp
    | cons raw' raws => rw [List.flatMap_cons, ih (by simp), List.intercalate_cons_cons]; simp

/-- The escaped segments of a text are those that give the text back when each is written after a
slash. -/
theorem rawSegments_eq_ok_iff {cs : List Char} {raws : List (List Char)} :
    rawSegments cs = .ok raws ↔
      raws ≠ [] ∧ (∀ raw ∈ raws, '/' ∉ raw) ∧ raws.flatMap ('/' :: ·) = cs := by
  constructor
  · intro h
    unfold rawSegments at h
    split at h
    · next body =>
      obtain rfl := Except.ok.inj h
      refine ⟨splitSlashes_ne_nil body, fun raw => slash_notMem_of_mem_splitSlashes, ?_⟩
      rw [flatMap_slash (splitSlashes_ne_nil body), splitSlashes_eq_splitOn,
        List.intercalate_splitOn]
    · exact absurd h (by simp)
  · rintro ⟨hne, hslash, rfl⟩
    rw [flatMap_slash hne, rawSegments, splitSlashes_eq_splitOn,
      List.splitOn_intercalate '/' hslash hne]

/-- What does not occur in a text does not occur in its segments. -/
lemma notMem_of_rawSegments {cs : List Char} {raws : List (List Char)} (h : rawSegments cs = .ok raws)
    {c : Char} (hc : c ∉ cs) {raw : List Char} (hraw : raw ∈ raws) : c ∉ raw := by
  obtain ⟨-, -, rfl⟩ := rawSegments_eq_ok_iff.mp h
  exact fun hmem => hc (List.mem_flatMap.mpr ⟨raw, hraw, List.mem_cons_of_mem _ hmem⟩)

/-! ### Escapes -/

/-- Every tilde is followed at once by `0` or `1`. -/
def Escaped (cs : List Char) : Prop :=
  ∀ i, cs[i]? = some '~' → cs[i + 1]? = some '0' ∨ cs[i + 1]? = some '1'

/-- The empty text is properly escaped. -/
lemma escaped_nil : Escaped [] := fun _ h => absurd h (by simp)

/-- A tilde is properly escaped by the digit after it. -/
lemma escaped_cons {c : Char} {cs : List Char} : Escaped (c :: cs) ↔
    (c = '~' → cs.head? = some '0' ∨ cs.head? = some '1') ∧ Escaped cs := by
  unfold Escaped
  rw [← Nat.and_forall_add_one]
  simp [List.head?_eq_getElem?]

/-- Escapes do not reach beyond what begins with neither `0` nor `1`. -/
lemma escaped_append {a b : List Char} (h0 : b.head? ≠ some '0') (h1 : b.head? ≠ some '1') :
    Escaped (a ++ b) ↔ Escaped a ∧ Escaped b := by
  induction a with
  | nil => simp [escaped_nil]
  | cons c a ih =>
    rw [List.cons_append, escaped_cons, escaped_cons, ih, and_assoc]
    cases a with
    | nil => simp [h0, h1]
    | cons d a => rfl

/-- A text is escaped as a whole if each of its segments is. -/
lemma escaped_flatMap_slash {raws : List (List Char)} :
    Escaped (raws.flatMap ('/' :: ·)) ↔ ∀ raw ∈ raws, Escaped raw := by
  induction raws with
  | nil => simp [escaped_nil]
  | cons raw raws ih =>
    have hhead : (raws.flatMap ('/' :: ·)).head? = none ∨
        (raws.flatMap ('/' :: ·)).head? = some '/' := by
      cases raws <;> simp
    have hbreak : ∀ c : Char, c ≠ '/' → (raws.flatMap ('/' :: ·)).head? ≠ some c := by
      intro c hc
      rcases hhead with h | h <;> simp [h, hc.symm]
    rw [List.flatMap_cons, List.cons_append, escaped_cons,
      escaped_append (hbreak '0' (by decide)) (hbreak '1' (by decide)), ih]
    simp

/-- The image of a result is there if the result is. -/
lemma map_eq_ok_iff {ε α β : Type} {x : Except ε α} {f : α → β} {b : β} :
    x.map f = .ok b ↔ ∃ a, x = .ok a ∧ f a = b := by
  cases x <;> simp [Except.map]

/-- Any character but a tilde stands for itself. -/
lemma unescape_cons {c : Char} (hc : c ≠ '~') (rest : List Char) :
    unescape (c :: rest) = (unescape rest).map (c :: ·) := by
  rw [unescape] <;> simp [hc]

/-- What is neither a tilde before another character nor a last tilde is no tilde. -/
lemma ne_tilde_of_forall_ne {c : Char} {rest : List Char}
    (hnext : ∀ d rest', c = '~' → rest = d :: rest' → False) (hlast : c = '~' → rest = [] → False) :
    c ≠ '~' := by
  rintro rfl
  cases rest with
  | nil => exact hlast rfl rfl
  | cons d rest => exact hnext d rest rfl rfl

/-- Exactly the escaped forms have a key. -/
theorem exists_unescape_iff {raw : List Char} : (∃ key, unescape raw = .ok key) ↔ Escaped raw := by
  -- by the cases of the reader: an escape, a tilde before another character or at the end, a plain character
  induction raw using unescape.induct with
  | case1 => simp [unescape, escaped_nil]
  | case2 rest ih => simp [unescape, escaped_cons, ← ih, map_eq_ok_iff]
  | case3 rest ih => simp [unescape, escaped_cons, ← ih, map_eq_ok_iff]
  | case4 c rest h0 h1 =>
    have h0 : c ≠ '0' := h0
    have h1 : c ≠ '1' := h1
    simp [unescape, escaped_cons, h0, h1]
  | case5 => simp [unescape, escaped_cons]
  | case6 c rest _ _ hnext hlast ih =>
    have hc := ne_tilde_of_forall_ne hnext hlast
    simp [unescape_cons hc, escaped_cons, hc, ← ih, map_eq_ok_iff]

/-- The escaped form of a key is read as that key. -/
lemma unescape_flatMap_escapeChar (key : List Char) :
    unescape (key.flatMap Segment.escapeChar) = .ok key := by
  induction key with
  | nil => rfl
  | cons c key ih =>
    rw [List.flatMap_cons, Segment.escapeChar]
    split
    · next hc => simp [unescape, ih, hc, Except.map]
    · next hc =>
      split
      · next hslash => simp [unescape, ih, hslash, Except.map]
      · simp [unescape_cons hc, ih, Except.map]

/-- A form without a slash is the escaped form of the key that is read from it. -/
lemma flatMap_escapeChar_of_unescape {raw : List Char} (hraw : '/' ∉ raw) {key : List Char}
    (h : unescape raw = .ok key) : key.flatMap Segment.escapeChar = raw := by
  induction raw using unescape.induct generalizing key with
  | case1 => simp_all [unescape]
  | case2 rest ih | case3 rest ih =>
    obtain ⟨key, hkey, rfl⟩ := map_eq_ok_iff.mp h
    have hrest : '/' ∉ rest := fun hmem => hraw (by simp [hmem])
    simp [Segment.escapeChar, ih hrest hkey]
  | case4 | case5 => simp [unescape] at h
  | case6 c rest _ _ hnext hlast ih =>
    have hc := ne_tilde_of_forall_ne hnext hlast
    rw [unescape_cons hc] at h
    obtain ⟨key, hkey, rfl⟩ := map_eq_ok_iff.mp h
    obtain ⟨hslash, hrest⟩ := not_or.mp (mt List.mem_cons.mpr hraw)
    simp [Segment.escapeChar, hc, Ne.symm hslash, ih hrest hkey]

namespace Segment

/-! ### Segments -/

/-- A segment is written without a slash. -/
lemma slash_notMem_chars (s : Segment) : '/' ∉ s.chars := by
  have hchar (c : Char) : '/' ∉ escapeChar c := by
    unfold escapeChar
    split
    · simp
    · split
      · simp
      · next hc => simpa using Ne.symm hc
  simp [chars, hchar]

/-- Writing a segment leaves its asterisks as they are. -/
lemma asterisk_mem_chars_iff (s : Segment) : '*' ∈ s.chars ↔ '*' ∈ s.key.toList := by
  have hchar (c : Char) : '*' ∈ escapeChar c ↔ c = '*' := by
    unfold escapeChar
    split
    · simp_all
    · split <;> simp_all [eq_comm]
  simp [chars, hchar]

/-- A form without a slash is read as the segment that it is the text of. -/
theorem ofRaw_eq_ok_iff {raw : List Char} (hraw : '/' ∉ raw) {s : Segment} :
    ofRaw raw = .ok s ↔ s.chars = raw := by
  unfold ofRaw
  rw [map_eq_ok_iff]
  constructor
  · rintro ⟨key, hkey, rfl⟩
    simpa [chars] using flatMap_escapeChar_of_unescape hraw hkey
  · rintro rfl
    exact ⟨s.key.toList, unescape_flatMap_escapeChar _, by simp⟩

/-- What can be unescaped is properly escaped. -/
lemma exists_ofRaw_iff {raw : List Char} : (∃ s, ofRaw raw = .ok s) ↔ Escaped raw := by
  simp [ofRaw, map_eq_ok_iff, ← exists_unescape_iff]

end Segment

/-! ### Reading one segment after another -/

section mapUntilFault

variable {ε α β γ : Type} {f : α → Except ε β}

/-- Checking a list goes from its head. -/
lemma mapUntilFault_cons_eq_ok_iff {a : α} {as : List α} {bs : List β} :
    mapUntilFault f (a :: as) = .ok bs ↔
      ∃ b, f a = .ok b ∧ ∃ rest, mapUntilFault f as = .ok rest ∧ b :: rest = bs := by
  rw [mapUntilFault]
  cases f a with
  | error e => simp
  | ok b => simp [map_eq_ok_iff]

/-- Checking a list succeeds if checking each element does. -/
lemma exists_mapUntilFault_iff {as : List α} :
    (∃ bs, mapUntilFault f as = .ok bs) ↔ ∀ a ∈ as, ∃ b, f a = .ok b := by
  induction as with
  | nil => simp [mapUntilFault]
  | cons a as ih =>
    simp only [mapUntilFault_cons_eq_ok_iff, List.forall_mem_cons, ← ih]
    exact ⟨fun ⟨_, b, hb, rest, hrest, _⟩ => ⟨⟨b, hb⟩, rest, hrest⟩,
      fun ⟨⟨b, hb⟩, rest, hrest⟩ => ⟨_, b, hb, rest, hrest, rfl⟩⟩

/-- If each thing is read as what it is the text of, then so is a list of things. -/
lemma mapUntilFault_eq_ok_iff {write : β → α} {P : β → Prop} {as : List α}
    (hf : ∀ a ∈ as, ∀ b, f a = .ok b ↔ write b = a ∧ P b) {bs : List β} :
    mapUntilFault f as = .ok bs ↔ bs.map write = as ∧ ∀ b ∈ bs, P b := by
  induction as generalizing bs with
  | nil =>
    rw [mapUntilFault, Except.ok.injEq, List.map_eq_nil_iff, eq_comm]
    exact ⟨fun h => ⟨h, by simp [h]⟩, And.left⟩
  | cons a as ih =>
    obtain ⟨ha, has⟩ := List.forall_mem_cons.mp hf
    rw [mapUntilFault_cons_eq_ok_iff]
    constructor
    · rintro ⟨b, hb, rest, hrest, rfl⟩
      obtain ⟨rfl, hP⟩ := (ha b).mp hb
      obtain ⟨rfl, hPs⟩ := (ih has).mp hrest
      exact ⟨rfl, List.forall_mem_cons.mpr ⟨hP, hPs⟩⟩
    · rintro ⟨hmap, hP⟩
      cases bs with
      | nil => simp at hmap
      | cons b rest =>
        obtain ⟨hb, hrest⟩ := List.cons_eq_cons.mp hmap
        obtain ⟨hPb, hPrest⟩ := List.forall_mem_cons.mp hP
        exact ⟨b, (ha b).mpr ⟨hb, hPb⟩, rest, (ih has).mpr ⟨hrest, hPrest⟩, rfl⟩

/-- Reading each thing as the image of what it was read as before. -/
lemma mapUntilFault_eq_map {f' : α → Except ε γ} {g : β → γ} {as : List α}
    (h : ∀ a ∈ as, f' a = (f a).map g) :
    mapUntilFault f' as = (mapUntilFault f as).map (List.map g) := by
  induction as with
  | nil => rfl
  | cons a as ih =>
    obtain ⟨ha, has⟩ := List.forall_mem_cons.mp h
    rw [mapUntilFault, mapUntilFault, ha, ih has]
    cases f a with
    | error e => rfl
    | ok b => cases mapUntilFault f as <;> rfl

end mapUntilFault

section readSegments

variable {β : Type} {f : List Char → Except PathFault β}

/-- What a text gives when each of its segments is read. -/
def readSegments (f : List Char → Except PathFault β) (cs : List Char) :
    Except PathFault (List β) := (rawSegments cs).bind (mapUntilFault f)

/-- The raw segments of a path are read one by one. -/
lemma readSegments_of_rawSegments {cs : List Char} {raws : List (List Char)}
    (h : rawSegments cs = .ok raws) : readSegments f cs = mapUntilFault f raws := by
  rw [readSegments, h]
  rfl

/-- A text is read if it begins with a slash and each of its segments is read. -/
lemma exists_readSegments_iff {cs : List Char} : (∃ bs, readSegments f cs = .ok bs) ↔
    ∃ raws, rawSegments cs = .ok raws ∧ ∀ raw ∈ raws, ∃ b, f raw = .ok b := by
  cases hraw : rawSegments cs with
  | error fault => simp [readSegments, hraw, Except.bind]
  | ok raws => simp [readSegments_of_rawSegments hraw, exists_mapUntilFault_iff]

/-- If each segment is read as what it is the text of, then so is a text: one segment after another, each
after a slash. -/
theorem readSegments_eq_ok_iff {write : β → List Char} {P : β → Prop}
    (hwrite : ∀ b, '/' ∉ write b)
    (hf : ∀ raw, '/' ∉ raw → ∀ b, f raw = .ok b ↔ write b = raw ∧ P b)
    {cs : List Char} {bs : List β} : readSegments f cs = .ok bs ↔
      bs ≠ [] ∧ bs.flatMap (fun b => '/' :: write b) = cs ∧ ∀ b ∈ bs, P b := by
  have hflat : (bs.map write).flatMap ('/' :: ·) = bs.flatMap fun b => '/' :: write b :=
    List.flatMap_map ..
  constructor
  · intro h
    cases hraw : rawSegments cs with
    | error fault => simp [readSegments, hraw, Except.bind] at h
    | ok raws =>
      obtain ⟨hne, hslash, rfl⟩ := rawSegments_eq_ok_iff.mp hraw
      rw [readSegments_of_rawSegments hraw,
        mapUntilFault_eq_ok_iff fun raw hmem => hf raw (hslash raw hmem)] at h
      obtain ⟨rfl, hP⟩ := h
      exact ⟨by simpa using hne, hflat.symm, hP⟩
  · rintro ⟨hne, rfl, hP⟩
    have hslash : ∀ raw ∈ bs.map write, '/' ∉ raw := by simpa using fun b _ => hwrite b
    have hraw := rawSegments_eq_ok_iff.mpr ⟨mt List.map_eq_nil_iff.mp hne, hslash, hflat⟩
    rw [readSegments_of_rawSegments hraw,
      mapUntilFault_eq_ok_iff fun raw hmem => hf raw (hslash raw hmem)]
    exact ⟨rfl, hP⟩

end readSegments

namespace Pointer

/-! ### Pointers -/

/-- No key of the pointer holds an asterisk. -/
def NoAsterisks (p : Pointer) : Prop := ∀ s ∈ p.segments, '*' ∉ s.key.toList

instance (p : Pointer) : Decidable p.NoAsterisks :=
  inferInstanceAs (Decidable (∀ s ∈ p.segments, '*' ∉ s.key.toList))

/-- A segment is read from what writes it, if it has no asterisk. -/
lemma readSegment_eq_ok_iff {raw : List Char} (hraw : '/' ∉ raw) {s : Segment} :
    readSegment raw = .ok s ↔ s.chars = raw ∧ '*' ∉ s.key.toList := by
  unfold readSegment
  split
  · next hstar =>
    simp only [reduceCtorEq, false_iff, not_and, not_not]
    rintro rfl
    exact s.asterisk_mem_chars_iff.mp hstar
  · next hstar =>
    rw [Segment.ofRaw_eq_ok_iff hraw]
    refine ⟨fun h => ⟨h, ?_⟩, And.left⟩
    rwa [← Segment.asterisk_mem_chars_iff, h]

/-- What can be read as a segment: an escaped text without asterisks. -/
lemma exists_readSegment_iff {raw : List Char} :
    (∃ s, readSegment raw = .ok s) ↔ '*' ∉ raw ∧ Escaped raw := by
  unfold readSegment
  split
  · next hstar => simp [hstar]
  · next hstar => simp [hstar, Segment.exists_ofRaw_iff]

/-- A path with characters is read segment by segment. -/
lemma ofChars_of_ne_nil {cs : List Char} (h : cs ≠ []) :
    ofChars cs = (readSegments readSegment cs).map Pointer.mk := by
  cases cs with
  | nil => exact absurd rfl h
  | cons c cs =>
    rw [ofChars, readSegments]
    · cases rawSegments (c :: cs) <;> rfl
    · exact List.cons_ne_nil c cs

/-- Only the root is written by no characters. -/
lemma charsOf_eq_nil_iff {segments : List Segment} : charsOf segments = [] ↔ segments = [] := by
  cases segments <;> simp [charsOf]

/-- A pointer is read from its text and from no other, unless a key of it holds an asterisk. -/
theorem ofChars_eq_ok_iff {cs : List Char} {p : Pointer} :
    ofChars cs = .ok p ↔ charsOf p.segments = cs ∧ p.NoAsterisks := by
  obtain ⟨segments⟩ := p
  rcases eq_or_ne cs [] with rfl | hne
  · rw [charsOf_eq_nil_iff, ofChars, Except.ok.injEq, root, Pointer.mk.injEq, eq_comm]
    exact ⟨fun h => ⟨h, by simp [NoAsterisks, h]⟩, And.left⟩
  · rw [ofChars_of_ne_nil hne, map_eq_ok_iff]
    simp only [Pointer.mk.injEq, exists_eq_right]
    rw [readSegments_eq_ok_iff Segment.slash_notMem_chars
      fun raw hraw s => readSegment_eq_ok_iff hraw]
    refine ⟨And.right, fun h => ⟨?_, h⟩⟩
    rintro rfl
    exact hne h.1.symm

/-- What can be read as a pointer. -/
lemma exists_ofChars_iff {cs : List Char} : (∃ p, ofChars cs = .ok p) ↔
    cs = [] ∨ cs.head? = some '/' ∧ '*' ∉ cs ∧ Escaped cs := by
  rcases eq_or_ne cs [] with rfl | hne
  · simp [ofChars]
  · have hread : (∃ p, ofChars cs = .ok p) ↔ ∃ segments, readSegments readSegment cs = .ok segments := by
      simp [ofChars_of_ne_nil hne, map_eq_ok_iff]
    rw [hread, exists_readSegments_iff]
    simp only [exists_readSegment_iff, hne, false_or]
    constructor
    · rintro ⟨raws, hraw, hgood⟩
      obtain ⟨hraws, -, rfl⟩ := rawSegments_eq_ok_iff.mp hraw
      refine ⟨?_, ?_, escaped_flatMap_slash.mpr fun raw hraw => (hgood raw hraw).2⟩
      · rw [flatMap_slash hraws, List.head?_cons]
      · simpa using fun raw hraw => (hgood raw hraw).1
    · rintro ⟨hhead, hstar, hescaped⟩
      obtain ⟨body, rfl⟩ := List.head?_eq_some_iff.mp hhead
      have hraws : rawSegments ('/' :: body) = .ok (splitSlashes body) := rfl
      obtain ⟨-, -, hflat⟩ := rawSegments_eq_ok_iff.mp hraws
      rw [← hflat] at hescaped
      exact ⟨_, hraws, fun raw hraw => ⟨notMem_of_rawSegments hraws hstar hraw,
        escaped_flatMap_slash.mp hescaped raw hraw⟩⟩

/-- Parsing a text is reading its characters. -/
lemma parse_eq_ok_iff_ofChars {path : String} {p : Pointer} :
    parse path = .ok p ↔ ofChars path.toList = .ok p := by
  unfold parse
  cases ofChars path.toList <;> simp [Except.mapError]

/-- Reading and writing are inverse on the pointers in whose keys no asterisk occurs. -/
theorem parse_eq_ok_iff {path : String} {p : Pointer} :
    parse path = .ok p ↔ p.text = path ∧ p.NoAsterisks := by
  rw [parse_eq_ok_iff_ofChars, ofChars_eq_ok_iff, text, String.ofList_eq]

/-- The texts of pointers are the empty one and those that begin with a slash, hold no asterisk, and follow
every tilde with `0` or `1`.  A text that is read is the text of the pointer that it is read as, and a pointer
without asterisks is read from its text, so that two such pointers have one text only if they are equal. -/
theorem parse_inverse_of_text (path : String) (p q : Pointer) :
    ((∃ p, parse path = .ok p) ↔
      path = "" ∨ path.toList.head? = some '/' ∧ '*' ∉ path.toList ∧ Escaped path.toList) ∧
    (parse path = .ok p → p.text = path) ∧
    (p.NoAsterisks → parse p.text = .ok p) ∧
    (p.NoAsterisks → q.NoAsterisks → p.text = q.text → p = q) := by
  refine ⟨?_, fun h => (parse_eq_ok_iff.mp h).1, fun h => parse_eq_ok_iff.mpr ⟨rfl, h⟩,
    fun hp hq htext => ?_⟩
  · simp only [parse_eq_ok_iff_ofChars]
    rw [exists_ofChars_iff, String.toList_eq_nil_iff]
  · have hread := parse_eq_ok_iff.mpr ⟨htext.symm, hq⟩
    rw [parse_eq_ok_iff.mpr ⟨rfl, hp⟩] at hread
    exact Except.ok.inj hread

/-- The keys `a/b`, `~1`, the empty key and the index 0, in this order. -/
theorem parse_inverse_of_text_escapes : ∃ p q : Pointer,
    p.segments = [⟨"a/b"⟩, ⟨"~1"⟩, ⟨""⟩, .ofIndex 0] ∧ q.segments = [⟨"a/b"⟩, ⟨"~1"⟩, ⟨""⟩, ⟨"0"⟩]
      ∧ p.NoAsterisks ∧ q.NoAsterisks ∧ parse "/a~1b/~01//0" = .ok p ∧ p.text = q.text
      ∧ p.text = "/a~1b/~01//0" ∧ parse p.text = .ok p ∧ p = q := by
  have hp : NoAsterisks ⟨[⟨"a/b"⟩, ⟨"~1"⟩, ⟨""⟩, .ofIndex 0]⟩ := by decide
  have hq : NoAsterisks ⟨[⟨"a/b"⟩, ⟨"~1"⟩, ⟨""⟩, ⟨"0"⟩]⟩ := by decide
  obtain ⟨-, htext, hparse, hinjective⟩ := parse_inverse_of_text "/a~1b/~01//0" _ _
  exact ⟨_, _, rfl, rfl, hp, hq, rfl, rfl, htext rfl, hparse hp, hinjective hp hq rfl⟩

end Pointer

end DocumentPath
