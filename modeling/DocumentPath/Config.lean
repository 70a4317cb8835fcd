import DocumentPath.Cache
import DocumentPath.Event
import DocumentPath.Json.Printer
import DocumentPath.Session
import DocumentPath.Toml.Reader

/-!
# Configuration

A `Config` sizes the pointer cache, allows the shortcut of a descent that ends a path, and picks the
manner of logging.  `Config.read` takes one from a document in which any setting may be left out and
unknown ones are ignored.
-/

namespace DocumentPath

/-- The settings of an engine. -/
structure Config where
  cacheCapacity : Nat := Cache.defaultCapacity
  fastDescent : Bool := true
  profile : Profile := .development
  deriving DecidableEq, Repr

namespace Config

/-- The size of a cache, as it is set. -/
def readCapacity? : Toml → Option Nat
  | .integer n => if 0 ≤ n then some n.toNat else none
  | _ => none

/-- A switch, as it is set. -/
def readSwitch? : Toml → Option Bool
  | .boolean b => some b
  | _ => none

/-- An array or table with nothing in it. -/
def isEmptyContainer : Toml → Bool
  | .array items => items.isEmpty
  | .table _ fields => fields.isEmpty
  | .tables elements => elements.isEmpty
  | _ => false

/-- A manner of logging, by its name or as a table whose only key is the name, with nothing under it. -/
def readProfile? : Toml → Option Profile
  | .text s => Profile.ofName? s
  | .table _ [(s, v)] => if isEmptyContainer v then Profile.ofName? s else none
  | _ => none

/-- The value of a setting, or its default. -/
def setting {α : Type} (fields : Toml.Fields) (name : String) (default : α)
    (read? : Toml → Option α) : Option α :=
  match Entries.get? fields name with
  | some v => read? v
  | none => some default

/-- The configuration that the fields of a document write. -/
def ofFields? (fields : Toml.Fields) : Option Config := do
  let capacity ← setting fields "cache_capacity" Cache.defaultCapacity readCapacity?
  let fast ← setting fields "descent_fast_path" true readSwitch?
  let profile ← setting fields "log_profile" .development readProfile?
  return ⟨capacity, fast, profile⟩

/-- A cache must have room for something. -/
def validate (c : Config) : Except PathError Config :=
  if c.cacheCapacity = 0 then
    .error (.invalidConfig "cache_capacity must be greater than zero")
  else .ok c

/-- The configuration that a text writes. -/
def read (s : String) : Except PathError Config :=
  match (Toml.read? s).bind ofFields? with
  | some c => c.validate
  | none => .error (.invalidConfig "TOML")

/-- The configuration as a JSON object. -/
def toTree (c : Config) : Tree :=
  .map [("cache_capacity", .number (.int c.cacheCapacity)), ("descent_fast_path", .bool c.fastDescent),
    ("log_profile", .text c.profile.name)]

/-- A session whose cache has the size set. -/
def session (c : Config) : Session := .ofCapacity c.cacheCapacity

end Config

end DocumentPath
