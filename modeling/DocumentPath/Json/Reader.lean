import DocumentPath.Tree.Basic

/-!
# Reading JSON text

JSON text is read in two steps.  `Json.read?` accepts the grammar and gives a `Json`, in which an
object may repeat a key, a number is still the `Numeral` that was written, and a string need not be a
text: its escapes may leave half of a surrogate pair alone.  `Json.toTree?` gives the tree that a
document stands for: of a repeated key the first position and the last value count, and a document is
refused if it nests deeper than `Json.depthBound`, holds a number out of range or holds a string that is
no text.

`Numeral.value?` says what a numeral is worth.  A numeral without point and exponent that fits 64 bits
is an integer, except that minus zero is a float.  Any other is a float: as many leading digits as fit
64 bits are rounded to a double, and that is multiplied or divided by the double nearest to a power of
ten.  Two roundings may make it differ from the double nearest to the decimal written.
-/

namespace DocumentPath

-- `^` stands for the built-in power, also next to that of a monoid
attribute [local instance (2000)] instPowNat

/-- A number as it is written in JSON text. -/
structure Numeral where
  negative : Bool
  whole : List Char
  fraction : List Char
  /-- Whether the exponent is negative, and its digits. -/
  exponent : Option (Bool × List Char)
  deriving DecidableEq, Repr

namespace Numeral

/-- Significands are below this bound. -/
def significandBound : Nat := 2 ^ (64 : Nat)

/-- The greatest exponent that is read as a number. -/
def exponentBound : Nat := 2 ^ (31 : Nat) - 1

/-- Appends digits to a significand as long as it stays in bounds; the digits left over come second. -/
def accumulate : Nat → List Char → Nat × List Char
  | n, [] => (n, [])
  | n, c :: rest =>
    if n * 10 + digitValue c < significandBound then accumulate (n * 10 + digitValue c) rest
    else (n, c :: rest)

/-- The double nearest to a power of ten. -/
def powerOfTen (k : Nat) : Binary64 := .ofRatio false (10 ^ k) 1

/-- A double multiplied or divided by a power of ten, in steps of at most `10 ^ 308`; absent when it
becomes infinite.  Two steps down bring every significand to zero, so three rounds suffice. -/
def scale? : Nat → Binary64 → Int → Option Binary64
  | 0, f, _ => some f
  | rounds + 1, f, e =>
    if e.natAbs ≤ 308 then
      let g := if 0 ≤ e then f.mul (powerOfTen e.toNat) else f.div (powerOfTen e.natAbs)
      if g.isFinite then some g else none
    else if f.significand = 0 then some f
    else if 0 ≤ e then none
    else scale? rounds (f.div (powerOfTen 308)) (e + 308)

/-- The float that a numeral is worth. -/
def float? (n : Numeral) : Option Binary64.Finite := do
  let (s, dropped) := accumulate 0 n.whole
  let (s, unused) := accumulate s n.fraction
  let shift : Int := dropped.length - (n.fraction.length - unused.length : Nat)
  let magnitude ← match n.exponent with
    | none => scale? 3 (.ofRatio false s 1) shift
    | some (minus, digits) =>
      let e := ofDigits digits
      if exponentBound < e then
        if s ≠ 0 ∧ minus = false then none else some (.zero false)
      else scale? 3 (.ofRatio false s 1) (if minus then shift - e else shift + e)
  (if n.negative then magnitude.neg else magnitude).finite?

/-- The number that a numeral is worth. -/
def value? (n : Numeral) : Option Number :=
  let magnitude := ofDigits n.whole
  if n.fraction = [] ∧ n.exponent = none ∧
      (if n.negative then 0 < magnitude ∧ magnitude ≤ 2 ^ (63 : Nat)
        else magnitude < 2 ^ (64 : Nat)) then
    some (.int (if n.negative then -(magnitude : Int) else magnitude))
  else n.float?.map .float

end Numeral

/-- A value as it is written in JSON text.  A string or a key is absent if it is no text. -/
inductive Json where
  | null
  | bool (b : Bool)
  | number (n : Numeral)
  | text (s : Option String)
  | array (items : List Json)
  | object (fields : List (Option String × Json))
  deriving Repr, Inhabited

namespace Json

/-! ### Lexical parts -/

/-- Drops the blanks that JSON allows between tokens. -/
def skipBlank (cs : List Char) : List Char :=
  cs.dropWhile fun c => c == ' ' || c == '\t' || c == '\n' || c == '\r'

/-- The value of a hexadecimal digit. -/
def hexValue? (c : Char) : Option Nat :=
  if c.isDigit then some (digitValue c)
  else if 'a' ≤ c ∧ c ≤ 'f' then some (c.toNat - 'a'.toNat + 10)
  else if 'A' ≤ c ∧ c ≤ 'F' then some (c.toNat - 'A'.toNat + 10)
  else none

/-- The number written by a given count of hexadecimal digits, and the rest. -/
def readHex? : Nat → List Char → Option (Nat × List Char)
  | 0, cs => some (0, cs)
  | _ + 1, [] => none
  | k + 1, c :: rest => do
    let d ← hexValue? c
    let (n, rest) ← readHex? k rest
    return (d * 16 ^ k + n, rest)

/-- The code point of an escape, after its backslash.  An escape by code unit may give a surrogate. -/
def readEscape? : List Char → Option (Nat × List Char)
  | '"' :: rest => some ('"'.toNat, rest)
  | '\\' :: rest => some ('\\'.toNat, rest)
  | '/' :: rest => some ('/'.toNat, rest)
  | 'b' :: rest => some (8, rest)
  | 'f' :: rest => some (12, rest)
  | 'n' :: rest => some (10, rest)
  | 'r' :: rest => some (13, rest)
  | 't' :: rest => some (9, rest)
  | 'u' :: rest => readHex? 4 rest
  | _ => none

/-- The code points of a string up to its closing quote, and what follows it.  The first argument
bounds their number. -/
def readString? : Nat → List Char → Option (List Nat × List Char)
  | 0, _ => none
  | _ + 1, [] => none
  | _ + 1, '"' :: rest => some ([], rest)
  | fuel + 1, '\\' :: rest => do
    let (point, rest) ← readEscape? rest
    let (points, rest) ← readString? fuel rest
    return (point :: points, rest)
  | fuel + 1, c :: rest =>
    if c.toNat < 32 then none
    else do
      let (points, rest) ← readString? fuel rest
      return (c.toNat :: points, rest)

/-- The characters of a list of code points, in which a high surrogate and the low one after it stand
for one character.  A surrogate outside such a pair is no character. -/
def characters? : List Nat → Option (List Char)
  | [] => some []
  | point :: rest =>
    if point < 0xD800 ∨ 0xE000 ≤ point then do return Char.ofNat point :: (← characters? rest)
    else
      match rest with
      | low :: rest =>
        if point < 0xDC00 ∧ 0xDC00 ≤ low ∧ low < 0xE000 then do
          return Char.ofNat (0x10000 + (point - 0xD800) * 0x400 + (low - 0xDC00))
            :: (← characters? rest)
        else none
      | [] => none

/-- Characters are read back from their code points. -/
theorem characters?_map_toNat (cs : List Char) : characters? (cs.map Char.toNat) = some cs := by
  induction cs with
  | nil => rfl
  | cons c rest ih =>
    have valid : c.toNat < 0xD800 ∨ 0xE000 ≤ c.toNat := c.valid.imp_right And.left
    unfold characters?
    simp [valid, ih]

/-- A string after its opening quote, and what follows it. -/
def readText? (cs : List Char) : Option (Option String × List Char) := do
  let (points, rest) ← readString? cs.length.succ cs
  return ((characters? points).map String.ofList, rest)

/-- The digits before a point: a zero alone, or digits that do not start with one. -/
def readWhole? (cs : List Char) : Option (List Char × List Char) :=
  let digits := cs.takeWhile Char.isDigit
  let rest := cs.dropWhile Char.isDigit
  match digits with
  | [] => none
  | '0' :: _ :: _ => none
  | _ => some (digits, rest)

/-- The digits after a point, if there is one. -/
def readFraction? : List Char → Option (List Char × List Char)
  | '.' :: rest =>
    match rest.takeWhile Char.isDigit with
    | [] => none
    | digits => some (digits, rest.dropWhile Char.isDigit)
  | cs => some ([], cs)

/-- An exponent, if there is one: whether it is negative, and its digits. -/
def readPower? : List Char → Option (Option (Bool × List Char) × List Char)
  | mark :: rest =>
    if mark = 'e' ∨ mark = 'E' then
      let (minus, rest) := readSign rest
      match rest.takeWhile Char.isDigit with
      | [] => none
      | digits => some (some (minus, digits), rest.dropWhile Char.isDigit)
    else some (none, mark :: rest)
  | [] => some (none, [])

/-- A numeral at the head of a text. -/
def readNumeral? (cs : List Char) : Option (Numeral × List Char) := do
  let (negative, cs) := match cs with
    | '-' :: rest => (true, rest)
    | cs => (false, cs)
  let (whole, cs) ← readWhole? cs
  let (fraction, cs) ← readFraction? cs
  let (exponent, cs) ← readPower? cs
  return (⟨negative, whole, fraction, exponent⟩, cs)

/-! ### Values -/

mutual

/-- A value at the head of a text.  The first argument bounds the number of steps. -/
def readValue? : Nat → List Char → Option (Json × List Char)
  | 0, _ => none
  | fuel + 1, cs =>
    match skipBlank cs with
    | 'n' :: 'u' :: 'l' :: 'l' :: rest => some (.null, rest)
    | 't' :: 'r' :: 'u' :: 'e' :: rest => some (.bool true, rest)
    | 'f' :: 'a' :: 'l' :: 's' :: 'e' :: rest => some (.bool false, rest)
    | '"' :: rest => do
      let (s, rest) ← readText? rest
      return (.text s, rest)
    | '[' :: rest =>
      match skipBlank rest with
      | ']' :: rest => some (.array [], rest)
      | rest => do
        let (items, rest) ← readItems? fuel rest
        return (.array items, rest)
    | '\x7b' :: rest =>
      match skipBlank rest with
      | '\x7d' :: rest => some (.object [], rest)
      | rest => do
        let (fields, rest) ← readFields? fuel rest
        return (.object fields, rest)
    | cs => do
      let (n, rest) ← readNumeral? cs
      return (.number n, rest)

/-- The items of an array up to its closing bracket, at least one. -/
def readItems? : Nat → List Char → Option (List Json × List Char)
  | 0, _ => none
  | fuel + 1, cs => do
    let (item, rest) ← readValue? fuel cs
    match skipBlank rest with
    | ']' :: rest => return ([item], rest)
    | ',' :: rest =>
      let (items, rest) ← readItems? fuel rest
      return (item :: items, rest)
    | _ => none

/-- The fields of an object up to its closing brace, at least one. -/
def readFields? : Nat → List Char → Option (List (Option String × Json) × List Char)
  | 0, _ => none
  | fuel + 1, cs =>
    match skipBlank cs with
    | '"' :: rest => do
      let (key, rest) ← readText? rest
      match skipBlank rest with
      | ':' :: rest =>
        let (value, rest) ← readValue? fuel rest
        match skipBlank rest with
        | '\x7d' :: rest => return ([(key, value)], rest)
        | ',' :: rest =>
          let (fields, rest) ← readFields? fuel rest
          return ((key, value) :: fields, rest)
        | _ => none
      | _ => none
    | _ => none

end

/-- The value that a whole text writes.  Every two steps of the reader consume a character, which
gives the bound on their number. -/
def read? (s : String) : Option Json :=
  let cs := s.toList
  match readValue? (2 * cs.length + 2) cs with
  | some (j, rest) => if skipBlank rest = [] then some j else none
  | none => none

/-! ### Documents -/

mutual

/-- The greatest number of arrays and objects around any value, itself included. -/
def depth : Json → Nat
  | .array items => depthItems items + 1
  | .object fields => depthFields fields + 1
  | _ => 0

/-- The greatest depth among a list of values. -/
def depthItems : List Json → Nat
  | [] => 0
  | j :: rest => max j.depth (depthItems rest)

/-- The greatest depth among a list of fields. -/
def depthFields : List (Option String × Json) → Nat
  | [] => 0
  | (_, j) :: rest => max j.depth (depthFields rest)

end

/-- Documents nest less deep than this. -/
def depthBound : Nat := 128

mutual

/-- The tree of a value, whatever its depth. -/
def toNode? : Json → Option Tree
  | .null => some .null
  | .bool b => some (.bool b)
  | .number n => n.value?.map .number
  | .text s => s.map .text
  | .array items => (toItems? items).map .array
  | .object fields => (toFields? [] fields).map .map

/-- The trees of a list of values. -/
def toItems? : List Json → Option (List Tree)
  | [] => some []
  | j :: rest => do return (← j.toNode?) :: (← toItems? rest)

/-- The fields read before, with further ones inserted in order. -/
def toFields? (before : List (String × Tree)) :
    List (Option String × Json) → Option (List (String × Tree))
  | [] => some before
  | (k, j) :: rest => do toFields? (Entries.insert before (← k) (← j.toNode?)) rest

end

/-- The tree that a document stands for. -/
def toTree? (j : Json) : Option Tree := if j.depth < depthBound then j.toNode? else none

end Json

/-- The tree that a JSON text writes. -/
def Tree.ofJson? (s : String) : Option Tree := (Json.read? s).bind Json.toTree?

end DocumentPath
