import DocumentPath.Number.Shortest
import DocumentPath.Tree.Basic

/-!
# JSON text of trees

`Tree.json` is the compact JSON text of a tree: no blanks, fields in insertion order, texts with the
shortest escapes JSON has, and floats by `jsonFloat`.
-/

namespace DocumentPath

/-- JSON text writes a float positionally when its leading digit stands between 10⁻⁵ and 10¹⁵, marks
the sign of every other exponent, and resolves ties to even. -/
def jsonFloat : FloatLayout := ⟨-5, 15, true, .toEven⟩

/-- The JSON text of a number. -/
def Number.json : Number → String
  | .int n => toString n
  | .float x => jsonFloat.render x.val

/-- Four hexadecimal digits of a number below `2 ^ 16`. -/
def hexDigits4 (n : Nat) : List Char :=
  [n / 4096 % 16, n / 256 % 16, n / 16 % 16, n % 16].map Nat.digitChar

/-- A character as it stands in a JSON string. -/
def jsonChar (c : Char) : List Char :=
  if c = '"' then ['\\', '"']
  else if c = '\\' then ['\\', '\\']
  else if c = '\x08' then ['\\', 'b']
  else if c = '\x0c' then ['\\', 'f']
  else if c = '\n' then ['\\', 'n']
  else if c = '\r' then ['\\', 'r']
  else if c = '\t' then ['\\', 't']
  else if c.toNat < 32 then ['\\', 'u'] ++ hexDigits4 c.toNat
  else [c]

/-- The characters of a text as a JSON string. -/
def jsonString (s : String) : List Char := '"' :: s.toList.flatMap jsonChar ++ ['"']

mutual

/-- The characters of the JSON text of a tree. -/
def Tree.jsonChars : Tree → List Char
  | .null => ['n', 'u', 'l', 'l']
  | .bool true => ['t', 'r', 'u', 'e']
  | .bool false => ['f', 'a', 'l', 's', 'e']
  | .number n => n.json.toList
  | .text s => jsonString s
  | .array [] => ['[', ']']
  | .array (t :: rest) => '[' :: t.jsonChars ++ jsonItems rest
  | .map [] => ['\x7b', '\x7d']
  | .map ((k, t) :: rest) => '\x7b' :: jsonString k ++ ':' :: t.jsonChars ++ jsonFields rest

/-- The remaining items of an array, up to its closing bracket. -/
def jsonItems : List Tree → List Char
  | [] => [']']
  | t :: rest => ',' :: t.jsonChars ++ jsonItems rest

/-- The remaining fields of an object, up to its closing brace. -/
def jsonFields : List (String × Tree) → List Char
  | [] => ['\x7d']
  | (k, t) :: rest => ',' :: jsonString k ++ ':' :: t.jsonChars ++ jsonFields rest

end

/-- The JSON text of a tree. -/
def Tree.json (t : Tree) : String := String.ofList t.jsonChars

end DocumentPath
