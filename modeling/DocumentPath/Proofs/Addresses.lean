import Mathlib
import DocumentPath.Proofs.Segments
import DocumentPath.Tree.Basic

/-!
# What segments address

A segment is determined by its key.  The keys that name an index are the decimal texts of the numbers in
range (`Segment.index?_eq_some_iff`), and a decimal text is digits without a leading zero
(`Segment.isDecimal_iff`).  A segment may keep its index beside its key, so that the key need not be read
again; `Segment.Indexed` is such a pair, and whether it is made from a key or from an index, the index kept is
the one that the key names (`Segment.Origin.made_eq`).

In a node a segment addresses a child by its position, `Tree.position?`: that is the child which it reads and
the child which it writes.  No two segments address one position (`Tree.eq_of_position?`), so that what is
written through one of them is never seen through another.
-/

namespace DocumentPath

namespace Segment

/-! ### Decimal texts -/

/-- A decimal text: digits alone, the first of them no zero unless it is the only one. -/
def IsDecimal (k : String) : Prop :=
  k ≠ "" ∧ (∀ c ∈ k.toList, c.isDigit) ∧ (k.toList.head? = some '0' → k = "0")

/-- A number is written by its decimal digits. -/
lemma toList_toString (n : ℕ) : (toString n).toList = Nat.toDigits 10 n := toList_key_ofIndex n

/-- The decimal texts are the texts of numbers. -/
theorem isDecimal_iff {k : String} : IsDecimal k ↔ ∃ n : ℕ, k = toString n := by
  constructor
  · rintro ⟨hne, hdigits, hlead⟩
    have hchars : k.toList ≠ [] := fun h => hne (String.toList_injective h)
    have hfirst : k.toList.length = 1 ∨ k.toList.head? ≠ some '0' := by
      by_cases hzero : k.toList.head? = some '0'
      · exact Or.inl (by rw [hlead hzero]; rfl)
      · exact Or.inr hzero
    refine ⟨ofDigits k.toList, String.toList_injective ?_⟩
    rw [toList_toString, toDigits_ofDigits hchars (List.all_eq_true.mpr hdigits) hfirst]
  · rintro ⟨n, rfl⟩
    have hchars : (toString n).toList ≠ [] := by
      rw [toList_toString]
      exact Nat.toDigits_ne_nil
    refine ⟨fun h => hchars (by rw [h]; rfl), fun c hc => ?_, fun hzero => ?_⟩
    · rw [toList_toString] at hc
      exact Nat.isDigit_of_mem_toDigits (by decide) le_rfl hc
    · rw [toList_toString] at hzero
      rcases Nat.eq_zero_or_pos n with rfl | hpos
      · rfl
      · exact absurd hzero (head?_toDigits hpos)

/-- A key names an index if it is the decimal text of that index and the index is in range. -/
theorem index?_eq_some_iff {s : Segment} {i : ℕ} :
    s.index? = some i ↔ s.key = toString i ∧ i < indexBound := by
  constructor
  · intro h
    exact ⟨congrArg key (eq_ofIndex_of_index? h), lt_indexBound_of_index? h⟩
  · rintro ⟨hkey, hi⟩
    obtain ⟨k⟩ := s
    obtain rfl : k = toString i := hkey
    exact index?_ofIndex hi

-- the greatest index, the first number out of range, and a leading zero
example : (⟨"18446744073709551615"⟩ : Segment).index? = some 18446744073709551615 ∧
    (⟨"18446744073709551616"⟩ : Segment).index? = none ∧ (⟨"012"⟩ : Segment).index? = none := by
  decide

/-! ### Indexes kept beside keys -/

/-- A segment that keeps its index beside its key. -/
structure Indexed where
  key : String
  index : Option ℕ
  deriving DecidableEq, Repr

/-- What a segment is made from: a key, or an index in range. -/
inductive Origin where
  | key (k : String)
  | index (i : Fin indexBound)

namespace Origin

/-- The segment made from a key or an index.  The index of a key is read off the key; an index is kept as it
is, and its key is written. -/
def made : Origin → Indexed
  | .key k => ⟨k, (⟨k⟩ : Segment).index?⟩
  | .index i => ⟨toString i.val, some i.val⟩

/-- A segment made from an index is the one made from its decimal text. -/
theorem made_index (i : Fin indexBound) : (index i).made = (key (toString i.val)).made := by
  have hread : (⟨toString i.val⟩ : Segment).index? = some i.val := index?_ofIndex i.isLt
  rw [made, made, hread]

/-- Whatever a segment is made from, it is the one made from its key. -/
lemma made_eq (o : Origin) : o.made = (key o.made.key).made := by
  cases o with
  | key k => rfl
  | index i => exact made_index i

/-- Segments are the same if their keys are. -/
theorem made_inj {o o' : Origin} : o.made = o'.made ↔ o.made.key = o'.made.key := by
  constructor
  · exact congrArg Indexed.key
  · intro h
    rw [o.made_eq, o'.made_eq, h]

end Origin

end Segment

/-! ### Positions -/

namespace Entries

variable {κ α : Type*} [DecidableEq κ]

/-- The position of the entry of a key. -/
def position? (es : Entries κ α) (k : κ) : Option ℕ := es.findIdx? fun e => e.1 = k

/-- The position of a key is found from the head of the entries on. -/
lemma position?_cons (e : κ × α) (es : Entries κ α) (k : κ) :
    position? (e :: es) k = if e.1 = k then some 0 else (position? es k).map (· + 1) := by
  rw [position?, List.findIdx?_cons, position?]
  simp

/-- A key is read at its position. -/
lemma get?_eq_position? (es : Entries κ α) (k : κ) :
    get? es k = (position? es k).bind fun i => (es.map Prod.snd)[i]? := by
  induction es with
  | nil => rfl
  | cons e rest ih =>
    obtain ⟨k', v⟩ := e
    rw [get?, position?_cons]
    by_cases hk : k' = k
    · simp [hk]
    · simp [hk, ih, Option.bind_map]

/-- A key is written at its position. -/
lemma map_snd_replace_eq (es : Entries κ α) (k : κ) (v : α) :
    (replace es k v).map Prod.snd
      = (position? es k).elim (es.map Prod.snd) fun i => (es.map Prod.snd).set i v := by
  induction es with
  | nil => rfl
  | cons e rest ih =>
    obtain ⟨k', v'⟩ := e
    rw [replace, position?_cons]
    by_cases hk : k' = k
    · simp [hk]
    · rw [if_neg hk, if_neg hk, List.map_cons, ih]
      cases position? rest k <;> rfl

/-- At a position stands one key. -/
lemma eq_of_position? {es : Entries κ α} {k k' : κ} {i : ℕ} (h : position? es k = some i)
    (h' : position? es k' = some i) : k = k' := by
  obtain ⟨hi, hk, -⟩ := List.findIdx?_eq_some_iff_getElem.mp h
  obtain ⟨_, hk', -⟩ := List.findIdx?_eq_some_iff_getElem.mp h'
  exact (of_decide_eq_true hk).symm.trans (of_decide_eq_true hk')

end Entries

namespace Tree

/-- The position, among the children of a node, of the child that a segment addresses. -/
def position? : Tree → Segment → Option ℕ
  | .array items, s => s.index?.filter (· < items.length)
  | .map fields, s => Entries.position? fields s.key
  | _, _ => none

/-- A segment reads the child that it addresses. -/
theorem child?_eq_position? (t : Tree) (s : Segment) :
    t.child? s = (t.position? s).bind (t.children[·]?) := by
  cases t with
  | array items =>
    rw [child?, position?]
    cases s.index? with
    | none => rfl
    | some i =>
      by_cases hi : i < items.length
      · simp [hi, element?, children, Option.filter_some]
      · simp [hi, element?, Option.filter_some]
  | map fields => exact Entries.get?_eq_position? fields s.key
  | null | bool | number | text => rfl

/-- A segment writes the child that it addresses. -/
theorem children_putChild_eq (t : Tree) (s : Segment) (v : Tree) :
    (t.putChild s v).children = (t.position? s).elim t.children (t.children.set · v) := by
  cases t with
  | array items =>
    rw [putChild, position?]
    cases s.index? with
    | none => rfl
    | some i =>
      by_cases hi : i < items.length
      · simp [hi, children, Option.filter_some]
      · simp [hi, children, Option.filter_some, List.set_eq_of_length_le (not_lt.mp hi)]
  | map fields => exact Entries.map_snd_replace_eq fields s.key v
  | null | bool | number | text => rfl

/-- One position is addressed by one segment at most. -/
theorem eq_of_position? {t : Tree} {s s' : Segment} {i : ℕ} (h : t.position? s = some i)
    (h' : t.position? s' = some i) : s = s' := by
  cases t with
  | array items =>
    have hs := Segment.eq_ofIndex_of_index? (Option.eq_some_of_filter_eq_some h)
    have hs' := Segment.eq_ofIndex_of_index? (Option.eq_some_of_filter_eq_some h')
    exact hs.trans hs'.symm
  | map fields =>
    obtain ⟨k⟩ := s
    obtain ⟨k'⟩ := s'
    exact congrArg Segment.mk (Entries.eq_of_position? h h')
  | null | bool | number | text => exact absurd h (by simp [position?])

end Tree

/-! ### Segments apart -/

/-- A segment is determined by its key, and different segments are apart.  A key names the index `i` if it is
the decimal text of `i`, which is digits without a leading zero, and `i` is in range; a segment made from an
index is the one made from that text, so that segments are equal if their keys are.  In every node a segment
reads and writes the child at the position that it addresses, and no two segments address one position. -/
theorem Segment.key_determines_address :
    (∀ (k : String) (i : ℕ),
      (⟨k⟩ : Segment).index? = some i ↔ k = toString i ∧ i < Segment.indexBound) ∧
    (∀ k : String, Segment.IsDecimal k ↔ ∃ i : ℕ, k = toString i) ∧
    (∀ i : Fin Segment.indexBound,
      (Segment.Origin.index i).made = (Segment.Origin.key (toString i.val)).made) ∧
    (∀ o o' : Segment.Origin, o.made = o'.made ↔ o.made.key = o'.made.key) ∧
    (∀ (t : Tree) (s : Segment),
      t.child? s = (t.position? s).bind (t.children[·]?) ∧
        ∀ v, (t.putChild s v).children = (t.position? s).elim t.children (t.children.set · v)) ∧
    ∀ (t : Tree) (i : ℕ), {s : Segment | t.position? s = some i}.Subsingleton :=
  ⟨fun _ _ => Segment.index?_eq_some_iff, fun _ => Segment.isDecimal_iff, Segment.Origin.made_index,
    fun _ _ => Segment.Origin.made_inj, fun t s => ⟨t.child?_eq_position? s, t.children_putChild_eq s⟩,
    fun _ _ _ hs _ hs' => Tree.eq_of_position? hs hs'⟩

end DocumentPath
