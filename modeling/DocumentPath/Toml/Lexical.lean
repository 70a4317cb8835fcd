import DocumentPath.Json.Reader

/-!
# Tokens of configuration documents

Readers for the parts of a document that hold no other values: blanks and comments, the four kinds of
strings, keys, numbers, and dates and times.  Each takes the characters that remain and gives what it
read together with those that still remain, or nothing if the text is not as it should be.
-/

namespace DocumentPath

-- `^` stands for the built-in power, also next to that of a monoid
attribute [local instance (2000)] instPowNat

namespace Toml

/-! ### Blanks, comments and lines -/

/-- A space or a tab. -/
def isBlank (c : Char) : Bool := c == ' ' || c == '\t'

/-- Drops spaces and tabs. -/
def skipBlank (cs : List Char) : List Char := cs.dropWhile isBlank

/-- A character that may stand in a comment or a string: a tab, or none of the control characters. -/
def isPlain (c : Char) : Bool := c == '\t' || (32 ≤ c.toNat && c.toNat != 127)

/-- The rest after a line break, which is a line feed with or without a carriage return before it. -/
def newline? : List Char → Option (List Char)
  | '\n' :: rest => some rest
  | '\r' :: '\n' :: rest => some rest
  | _ => none

/-- Drops a comment, if one starts here. -/
def skipComment : List Char → List Char
  | '#' :: rest => rest.dropWhile isPlain
  | cs => cs

/-- The rest after the end of a line, before which blanks and a comment may stand; the end of the text
ends a line as well. -/
def endLine? (cs : List Char) : Option (List Char) :=
  match skipComment (skipBlank cs) with
  | [] => some []
  | cs => newline? cs

/-- Drops blanks and line breaks. -/
def skipLines : List Char → List Char
  | '\r' :: '\n' :: rest => skipLines rest
  | c :: rest => if isBlank c || c == '\n' then skipLines rest else c :: rest
  | [] => []

/-- Drops blanks, line breaks and comments; the flag says whether the text starts inside a comment. -/
def skipFiller : Bool → List Char → List Char
  | _, '\r' :: '\n' :: rest => skipFiller false rest
  | _, '\n' :: rest => skipFiller false rest
  | true, c :: rest => if isPlain c then skipFiller true rest else c :: rest
  | false, '#' :: rest => skipFiller true rest
  | false, c :: rest => if isBlank c then skipFiller false rest else c :: rest
  | _, [] => []

/-! ### Strings -/

/-- The character of a code point in hexadecimal digits. -/
def readCodePoint? (digits : Nat) (cs : List Char) : Option (Char × List Char) := do
  let (n, rest) ← Json.readHex? digits cs
  if n.isValidChar then return (Char.ofNat n, rest) else none

/-- The character of an escape, after its backslash. -/
def readEscape? : List Char → Option (Char × List Char)
  | '"' :: rest => some ('"', rest)
  | '\\' :: rest => some ('\\', rest)
  | 'b' :: rest => some ('\x08', rest)
  | 'f' :: rest => some ('\x0c', rest)
  | 'n' :: rest => some ('\n', rest)
  | 'r' :: rest => some ('\r', rest)
  | 't' :: rest => some ('\t', rest)
  | 'u' :: rest => readCodePoint? 4 rest
  | 'U' :: rest => readCodePoint? 8 rest
  | _ => none

/-- A string on one line with escapes, after its opening quote.  The first argument bounds the number
of characters. -/
def readBasic? : Nat → List Char → Option (List Char × List Char)
  | 0, _ => none
  | _ + 1, [] => none
  | _ + 1, '"' :: rest => some ([], rest)
  | fuel + 1, '\\' :: rest => do
    let (c, rest) ← readEscape? rest
    let (cs, rest) ← readBasic? fuel rest
    return (c :: cs, rest)
  | fuel + 1, c :: rest =>
    if isPlain c then do
      let (cs, rest) ← readBasic? fuel rest
      return (c :: cs, rest)
    else none

/-- A string on one line without escapes, after its opening quote. -/
def readLiteral? : List Char → Option (List Char × List Char)
  | [] => none
  | '\'' :: rest => some ([], rest)
  | c :: rest =>
    if isPlain c then do
      let (cs, rest) ← readLiteral? rest
      return (c :: cs, rest)
    else none

/-- The rest after the line that ends here and the blanks and line breaks that follow it. -/
def joinLines? (cs : List Char) : Option (List Char) := (newline? (skipBlank cs)).map skipLines

/-- A string over several lines, up to three closing quotes; one or two quotes may stand right before
them.  Between double quotes there are escapes, and a backslash at the end of a line drops the blanks
and line breaks after it.  The first argument is the quote and the second bounds the number of
characters. -/
def readLongString? (quote : Char) : Nat → List Char → Option (List Char × List Char)
  | 0, _ => none
  | _ + 1, [] => none
  | fuel + 1, c :: rest =>
    if c = quote then
      let more := rest.takeWhile (· == quote)
      let rest := rest.dropWhile (· == quote)
      if more.length < 2 then do
        let (cs, rest) ← readLongString? quote fuel rest
        return (c :: more ++ cs, rest)
      else if more.length < 5 then some (more.drop 2, rest)
      else none
    else if c = '\\' ∧ quote = '"' then
      match joinLines? rest with
      | some rest => readLongString? quote fuel rest
      | none => do
        let (c, rest) ← readEscape? rest
        let (cs, rest) ← readLongString? quote fuel rest
        return (c :: cs, rest)
    else
      match newline? (c :: rest) with
      | some rest => do
        let (cs, rest) ← readLongString? quote fuel rest
        return ('\n' :: cs, rest)
      | none =>
        if isPlain c then do
          let (cs, rest) ← readLongString? quote fuel rest
          return (c :: cs, rest)
        else none

/-- A string over several lines, after its opening quotes; a line break right after them is dropped. -/
def readLong? (quote : Char) (cs : List Char) : Option (List Char × List Char) :=
  let body := (newline? cs).getD cs
  readLongString? quote (body.length + 1) body

/-- What was read, its characters as a text. -/
def asText (read : Option (List Char × List Char)) : Option (String × List Char) :=
  read.map fun (cs, rest) => (String.ofList cs, rest)

/-- A string of any kind. -/
def readString? : List Char → Option (String × List Char)
  | '"' :: '"' :: '"' :: rest => asText (readLong? '"' rest)
  | '\'' :: '\'' :: '\'' :: rest => asText (readLong? '\'' rest)
  | '"' :: rest => asText (readBasic? (rest.length + 1) rest)
  | '\'' :: rest => asText (readLiteral? rest)
  | _ => none

/-! ### Keys -/

/-- A character of a key without quotes. -/
def isKeyChar (c : Char) : Bool := c.isAlphanum || c == '_' || c == '-'

/-- A single key, bare or a string on one line. -/
def readSimpleKey? : List Char → Option (String × List Char)
  | '"' :: rest => asText (readBasic? (rest.length + 1) rest)
  | '\'' :: rest => asText (readLiteral? rest)
  | cs =>
    match cs.takeWhile isKeyChar with
    | [] => none
    | key => some (String.ofList key, cs.dropWhile isKeyChar)

/-- Nested values and dotted keys have at most this many levels. -/
def levelBound : Nat := 79

/-- Keys between points, around which blanks may stand.  The first argument bounds their number. -/
def readKey? : Nat → List Char → Option (List String × List Char)
  | 0, _ => none
  | fuel + 1, cs => do
    let (key, rest) ← readSimpleKey? (skipBlank cs)
    match skipBlank rest with
    | '.' :: rest =>
      let (keys, rest) ← readKey? fuel rest
      return (key :: keys, rest)
    | rest => return ([key], rest)

/-! ### Numbers -/

/-- Digits after a first one: single underscores may stand between digits and are dropped. -/
def readDigits (isDigit : Char → Bool) : List Char → List Char × List Char
  | '_' :: d :: rest =>
    if isDigit d then
      let (ds, rest) := readDigits isDigit rest
      (d :: ds, rest)
    else ([], '_' :: d :: rest)
  | d :: rest =>
    if isDigit d then
      let (ds, rest) := readDigits isDigit rest
      (d :: ds, rest)
    else ([], d :: rest)
  | [] => ([], [])

/-- At least one digit, with single underscores between digits. -/
def readDigits? (isDigit : Char → Bool) : List Char → Option (List Char × List Char)
  | d :: rest =>
    if isDigit d then
      let (ds, rest) := readDigits isDigit rest
      some (d :: ds, rest)
    else none
  | [] => none

/-- A whole number in decimal digits with an optional sign and no leading zeros: whether it has a minus
sign, and its digits. -/
def readWhole? (cs : List Char) : Option ((Bool × List Char) × List Char) :=
  let (negative, cs) := readSign cs
  match cs with
  | '0' :: rest => some ((negative, ['0']), rest)
  | cs => (readDigits? Char.isDigit cs).map fun (ds, rest) => ((negative, ds), rest)

/-- The number that digits write in a base. -/
def ofBase (base : Nat) (ds : List Char) : Nat :=
  ds.foldl (fun n c => n * base + (Json.hexValue? c).getD 0) 0

/-- A natural number after the mark of its base; it must fit 64 bits with sign. -/
def readBase? (base : Nat) (cs : List Char) : Option (Int × List Char) := do
  let (ds, rest) ← readDigits? (fun c => (Json.hexValue? c).any (· < base)) cs
  if ofBase base ds < 2 ^ (63 : Nat) then return (ofBase base ds, rest) else none

/-- An integer of 64 bits with sign. -/
def readInteger? : List Char → Option (Int × List Char)
  | '0' :: 'x' :: rest => readBase? 16 rest
  | '0' :: 'o' :: rest => readBase? 8 rest
  | '0' :: 'b' :: rest => readBase? 2 rest
  | cs => do
    let ((negative, ds), rest) ← readWhole? cs
    let n : Int := if negative then -(ofDigits ds : Int) else ofDigits ds
    if -2 ^ (63 : Nat) ≤ n ∧ n < 2 ^ (63 : Nat) then return (n, rest) else none

/-- The exponent after its mark, if there is one. -/
def readPower? : List Char → Option (Option Int × List Char)
  | mark :: rest =>
    if mark = 'e' ∨ mark = 'E' then
      let (negative, rest) := readSign rest
      (readDigits? Char.isDigit rest).map fun (ds, rest) =>
        (some (if negative then -(ofDigits ds : Int) else ofDigits ds), rest)
    else some (none, mark :: rest)
  | [] => some (none, [])

/-- A decimal with a fraction, an exponent or both. -/
def readDecimal? (cs : List Char) : Option (Binary64 × List Char) := do
  let ((negative, whole), rest) ← readWhole? cs
  let (fraction, rest) ← match rest with
    | '.' :: rest => readDigits? Char.isDigit rest
    | rest => some ([], rest)
  let (power, rest) ← readPower? rest
  if fraction = [] ∧ power = none then none
  else
    let x := Binary64.ofDecimal negative (ofDigits (whole ++ fraction))
      (power.getD 0 - fraction.length)
    if x = Binary64.infinity false then none else return (x, rest)

/-- A floating-point number: a decimal that is not too large, an infinity or a NaN. -/
def readFloat? (cs : List Char) : Option (Binary64 × List Char) :=
  let (negative, word) := readSign cs
  match word with
  | 'i' :: 'n' :: 'f' :: rest => some (Binary64.infinity negative, rest)
  | 'n' :: 'a' :: 'n' :: rest => some (if negative then Binary64.nan.neg else Binary64.nan, rest)
  | _ => readDecimal? cs

/-! ### Dates and times -/

/-- A number of exactly so many digits, within bounds. -/
def readPart? (digits low high : Nat) (cs : List Char) : Option (Nat × List Char) :=
  let part := cs.take digits
  if part.length = digits ∧ part.all Char.isDigit ∧ low ≤ ofDigits part ∧ ofDigits part ≤ high then
    some (ofDigits part, cs.drop digits)
  else none

/-- The rest after a given character. -/
def skipChar? (c : Char) : List Char → Option (List Char)
  | [] => none
  | c' :: rest => if c' = c then some rest else none

/-- The number of days of a month. -/
def daysOf (year month : Nat) : Nat :=
  if month = 2 then
    if year % 4 = 0 ∧ (year % 100 ≠ 0 ∨ year % 400 = 0) then 29 else 28
  else if month ∈ [4, 6, 9, 11] then 30
  else 31

/-- The rest after a date of the calendar. -/
def skipDate? (cs : List Char) : Option (List Char) := do
  let (year, cs) ← readPart? 4 0 9999 cs
  let (month, cs) ← readPart? 2 1 12 (← skipChar? '-' cs)
  let (_, cs) ← readPart? 2 1 (daysOf year month) (← skipChar? '-' cs)
  return cs

/-- The rest after a fraction of a second, if there is one. -/
def skipFraction : List Char → List Char
  | '.' :: d :: rest => if d.isDigit then rest.dropWhile Char.isDigit else '.' :: d :: rest
  | cs => cs

/-- The rest after a time of day; a minute may have a leap second. -/
def skipTime? (cs : List Char) : Option (List Char) := do
  let (_, cs) ← readPart? 2 0 23 cs
  let (_, cs) ← readPart? 2 0 59 (← skipChar? ':' cs)
  let (_, cs) ← readPart? 2 0 60 (← skipChar? ':' cs)
  return skipFraction cs

/-- The rest after an offset from universal time, if there is one. -/
def skipOffset? : List Char → Option (List Char)
  | [] => some []
  | c :: rest =>
    if c = 'Z' ∨ c = 'z' then some rest
    else if c = '+' ∨ c = '-' then do
      let (_, cs) ← readPart? 2 0 23 rest
      let (_, cs) ← readPart? 2 0 59 (← skipChar? ':' cs)
      return cs
    else some (c :: rest)

/-- The rest after a date, a time of day, or both, with or without an offset. -/
def skipDateTime? (cs : List Char) : Option (List Char) :=
  match skipDate? cs with
  | none => skipTime? cs
  | some [] => some []
  | some (c :: rest) =>
    if c = 'T' ∨ c = 't' ∨ c = ' ' then
      match skipTime? rest with
      | some rest => skipOffset? rest
      | none => some (c :: rest)
    else some (c :: rest)

/-- A date, a time of day, or both, as it is written. -/
def readDateTime? (cs : List Char) : Option (String × List Char) :=
  (skipDateTime? cs).map fun rest => (String.ofList (cs.take (cs.length - rest.length)), rest)

end Toml

end DocumentPath
