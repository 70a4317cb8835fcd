import DocumentPath.Toml.Document
import DocumentPath.Toml.Lexical

/-!
# Reading configuration documents

`Toml.read?` gives the fields of the root table of a document.  A document is read line by line as
statements, which `Toml.ofStatements?` then carries out.
-/

namespace DocumentPath

namespace Toml

/-- A dotted key of at most `levelBound` keys. -/
def readDottedKey? (cs : List Char) : Option (List String × List Char) := do
  let (key, rest) ← readKey? (cs.length + 1) cs
  if key.length ≤ levelBound then return (key, rest) else none

/-- A date, time or number, in this order of preference. -/
def readNumber? (cs : List Char) : Option (Toml × List Char) :=
  ((readDateTime? cs).map fun (s, rest) => (.dateTime s, rest)).or <|
    ((readFloat? cs).map fun (x, rest) => (.float x, rest)).or <|
      (readInteger? cs).map fun (n, rest) => (.integer n, rest)

mutual

/-- A value.  The first argument bounds the number of steps, and the second that of the levels of arrays
and inline tables. -/
def readValue? : Nat → Nat → List Char → Option (Toml × List Char)
  | 0, _, _ => none
  | fuel + 1, levels, cs =>
    match cs, levels with
    | '"' :: _, _ | '\'' :: _, _ => (readString? cs).map fun (s, rest) => (.text s, rest)
    | 't' :: 'r' :: 'u' :: 'e' :: rest, _ => some (.boolean true, rest)
    | 'f' :: 'a' :: 'l' :: 's' :: 'e' :: rest, _ => some (.boolean false, rest)
    | '[' :: rest, levels + 1 =>
      match skipFiller false rest with
      | ']' :: rest => some (.array [], rest)
      | rest => do
        let (items, rest) ← readItems? fuel levels rest
        return (.array items, rest)
    | '\x7b' :: rest, levels + 1 =>
      match skipBlank rest with
      | '\x7d' :: rest => some (.table .inline [], rest)
      | rest => do
        let (fields, rest) ← readFields? fuel levels rest []
        return (.table .inline fields, rest)
    | '[' :: _, 0 | '\x7b' :: _, 0 => none
    | cs, _ => readNumber? cs

/-- The items of an array up to its closing bracket, at least one; a comma may follow the last. -/
def readItems? : Nat → Nat → List Char → Option (List Toml × List Char)
  | 0, _, _ => none
  | fuel + 1, levels, cs => do
    let (item, rest) ← readValue? fuel levels cs
    match skipFiller false rest with
    | ']' :: rest => return ([item], rest)
    | ',' :: rest =>
      match skipFiller false rest with
      | ']' :: rest => return ([item], rest)
      | rest =>
        let (items, rest) ← readItems? fuel levels rest
        return (item :: items, rest)
    | _ => none

/-- The fields of an inline table up to its closing brace, at least one, added to those before. -/
def readFields? : Nat → Nat → List Char → Fields → Option (Fields × List Char)
  | 0, _, _, _ => none
  | fuel + 1, levels, cs, before => do
    let (key, rest) ← readDottedKey? cs
    let rest ← skipChar? '=' rest
    let (value, rest) ← readValue? fuel levels (skipBlank rest)
    let fields ← assign value key true before
    match skipBlank rest with
    | '\x7d' :: rest => return (fields, rest)
    | ',' :: rest => readFields? fuel levels rest fields
    | _ => none

end

/-- A value under a dotted key, on a line of its own. -/
def readPair? (cs : List Char) : Option (Statement × List Char) := do
  let (key, rest) ← readDottedKey? cs
  let rest ← skipChar? '=' rest
  let (value, rest) ← readValue? (2 * rest.length + 2) levelBound (skipBlank rest)
  return (.pair key value, ← endLine? rest)

/-- The header of a table or of an element, on a line of its own, after its first bracket. -/
def readHeader? : List Char → Option (Statement × List Char)
  | '[' :: rest => do
    let (path, rest) ← readDottedKey? rest
    let rest ← skipChar? ']' (← skipChar? ']' rest)
    return (.element path, ← endLine? rest)
  | rest => do
    let (path, rest) ← readDottedKey? rest
    let rest ← skipChar? ']' rest
    return (.table path, ← endLine? rest)

/-- The statements of a text.  The first argument bounds the number of lines. -/
def readStatements? : Nat → List Char → Option (List Statement)
  | 0, _ => none
  | fuel + 1, cs =>
    match skipBlank cs with
    | [] => some []
    | '[' :: rest => do
      let (statement, rest) ← readHeader? rest
      return statement :: (← readStatements? fuel rest)
    | cs =>
      match endLine? cs with
      | some rest => readStatements? fuel rest
      | none => do
        let (statement, rest) ← readPair? cs
        return statement :: (← readStatements? fuel rest)

/-- The fields of the root table that a text writes; a byte order mark before it is dropped. -/
def read? (s : String) : Option Fields :=
  let cs := match s.toList with
    | '\ufeff' :: rest => rest
    | cs => cs
  (readStatements? (cs.length + 1) cs).bind ofStatements?

end Toml

end DocumentPath
