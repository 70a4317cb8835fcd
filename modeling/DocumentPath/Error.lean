import DocumentPath.Scalar.Basic

/-!
# Errors

`PathError` lists what can go wrong when a path is compiled, a tree is changed, a value is coerced, a
spec is verified or a configuration is read, and `PathError.message` words it.  `PathFault` and
`Obstacle` name the single causes of a malformed path and of an impossible operation.

A `Report` is the structured form of an error that is logged: a kind with a stable code, and the
operation, path, spec and source it concerns.  `PathError.report` files every error as one.
-/

namespace DocumentPath

/-! ### Causes -/

/-- Why the text of a path is malformed. -/
inductive PathFault where
  | noLeadingSlash
  | wildcardInPointer (segment : String)
  | mixedWildcard (segment : String)
  | invalidEscape (c : Char)
  | danglingEscape
  deriving DecidableEq, Repr

/-- The wording of a fault. -/
def PathFault.message : PathFault → String
  | .noLeadingSlash => "must be empty or start with '/'"
  | .wildcardInPointer s => "wildcard segment '" ++ s ++ "' is not allowed in an absolute path"
  | .mixedWildcard s => "'" ++ s ++ "' mixes a wildcard with other characters"
  | .invalidEscape c => "invalid escape sequence '~" ++ String.singleton c ++ "'"
  | .danglingEscape => "dangling '~' escape"

/-- Why a location of a tree cannot be changed as asked. -/
inductive Obstacle where
  | rootNotContainer
  | rootNotArray
  | locationHoldsValue
  | containerNotCreated
  | arrayNotCreated
  | ancestorNotCreated
  | notContainer (s : Segment)
  | notIndex (s : Segment)
  | writeIntoValue (s : Segment)
  | descendIntoValue (s : Segment)
  | parentIsValue
  | destinationIsValue
  | cannotAddTo (k : Kind)
  | cannotMerge (source destination : Kind)
  deriving DecidableEq, Repr

/-- The wording of an obstacle. -/
def Obstacle.message : Obstacle → String
  | .rootNotContainer => "root is not a container"
  | .rootNotArray => "root is not an array"
  | .locationHoldsValue => "location holds a value, not a container"
  | .containerNotCreated => "container could not be created"
  | .arrayNotCreated => "array could not be created"
  | .ancestorNotCreated => "intermediate could not be created"
  | .notContainer s => "'" ++ s.text ++ "' is not a container"
  | .notIndex s => "'" ++ s.text ++ "' is not an array index"
  | .writeIntoValue s => "cannot write '" ++ s.text ++ "' into a value"
  | .descendIntoValue s => "cannot descend into value at '" ++ s.text ++ "'"
  | .parentIsValue => "parent is a value"
  | .destinationIsValue => "destination parent is a value"
  | .cannotAddTo k => "cannot add to a " ++ k.name
  | .cannotMerge k k' => "cannot merge a " ++ k.name ++ " root into a " ++ k'.name

/-! ### Errors -/

/-- The kinds of errors. -/
inductive ErrorKind where
  | malformedPath
  | missingParent
  | invalidOperation
  | unsupportedCoercion
  | specValidation
  | invalidConfig
  deriving DecidableEq, Repr

namespace ErrorKind

/-- The name of a kind. -/
def name : ErrorKind → String
  | .malformedPath => "MalformedPath"
  | .missingParent => "MissingParent"
  | .invalidOperation => "InvalidOperation"
  | .unsupportedCoercion => "UnsupportedCoercion"
  | .specValidation => "SpecValidation"
  | .invalidConfig => "InvalidConfig"

/-- The code under which errors of a kind are filed. -/
def code : ErrorKind → String
  | .malformedPath => "ERR_MALFORMED_PATH"
  | .missingParent => "ERR_MISSING_PARENT"
  | .invalidOperation => "ERR_INVALID_OPERATION"
  | .unsupportedCoercion => "ERR_UNSUPPORTED_COERCION"
  | .specValidation => "ERR_SPEC_VALIDATION"
  | .invalidConfig => "ERR_INVALID_CONFIG"

/-- Every kind. -/
def all : List ErrorKind :=
  [malformedPath, missingParent, invalidOperation, unsupportedCoercion, specValidation,
    invalidConfig]

/-- The kind of a name. -/
def ofName? (s : String) : Option ErrorKind := all.find? (·.name == s)

end ErrorKind

/-- What can go wrong. -/
inductive PathError where
  /-- The text of a path does not follow the grammar. -/
  | malformedPath (path reason : String)
  /-- The container of a location to be transformed does not exist. -/
  | missingParent (path : String)
  /-- A tree, spec or transform does not allow the operation. -/
  | invalidOperation (path reason : String)
  /-- A value cannot take the representation asked for. -/
  | unsupportedCoercion (value : String) (target : Representation)
  /-- A path named in a spec does not compile. -/
  | specValidation (spec : String) (source : PathError)
  /-- A configuration cannot be read or is out of range. -/
  | invalidConfig (reason : String)
  deriving DecidableEq, Repr

namespace PathError

/-- The error of a fault in the text of a path. -/
def malformed (path : String) (fault : PathFault) : PathError :=
  .malformedPath path fault.message

/-- The kind of an error. -/
def kind : PathError → ErrorKind
  | .malformedPath .. => .malformedPath
  | .missingParent .. => .missingParent
  | .invalidOperation .. => .invalidOperation
  | .unsupportedCoercion .. => .unsupportedCoercion
  | .specValidation .. => .specValidation
  | .invalidConfig .. => .invalidConfig

/-- The wording of an error. -/
def message : PathError → String
  | .malformedPath path reason => "Malformed path '" ++ path ++ "': " ++ reason
  | .missingParent path => "Parent is missing for path '" ++ path ++ "'"
  | .invalidOperation path reason => "Invalid operation on '" ++ path ++ "': " ++ reason
  | .unsupportedCoercion value target =>
    "Unsupported coercion requested from " ++ value ++ " to " ++ target.name
  | .specValidation spec source => spec ++ " has invalid pointer: " ++ source.message
  | .invalidConfig reason => "Invalid configuration: " ++ reason

/-- The error that caused this one. -/
def source? : PathError → Option PathError
  | .specValidation _ source => some source
  | _ => none

end PathError

/-! ### Reports -/

/-- The structured form of an error. -/
structure Report where
  kind : ErrorKind
  operation : Option String := none
  path : Option String := none
  spec : Option String := none
  message : String := ""
  source : Option Report := none

namespace Report

/-- The code of the report's kind. -/
def code (r : Report) : String := r.kind.code

/-- The report on one line; its source is left out. -/
def text (r : Report) : String :=
  "[" ++ r.code ++ "]"
    ++ (r.operation.elim "" fun o => " in operation '" ++ o ++ "'")
    ++ (if r.message = "" then "" else ": " ++ r.message)
    ++ (r.path.elim "" fun p => " (path: '" ++ p ++ "')")
    ++ (r.spec.elim "" fun s => " (spec: " ++ s ++ ")")

end Report

/-- The report that files an error. -/
def PathError.report : PathError → Report
  | .malformedPath path reason =>
    { kind := .malformedPath, operation := "compile", path, message := reason }
  | .missingParent path =>
    { kind := .missingParent, operation := "apply", path, message := "Parent container does not exist" }
  | .invalidOperation path reason => { kind := .invalidOperation, path, message := reason }
  | .unsupportedCoercion value target =>
    { kind := .unsupportedCoercion, operation := "coerce",
      message := "Cannot coerce " ++ value ++ " to " ++ target.name }
  | .specValidation spec source =>
    { kind := .specValidation, operation := "verify", spec, message := "Spec has invalid pointer",
      source := source.report }
  | .invalidConfig reason =>
    { kind := .invalidConfig, operation := "load_config", message := reason }

end DocumentPath
