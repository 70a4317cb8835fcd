import DocumentPath.Error

/-!
# Events

What a run reports about itself.  An `Event` is one report; `Event.level`, `Event.target` and
`Event.fields` give the severity, the reporting component and the named texts under which it is logged,
and `Event.isTimed` whether a duration belongs to it.  Every run begins with `started` and finishes with
`ended` or `failed`.  `Profile` is the manner of logging asked for.
-/

namespace DocumentPath

/-- The engines that report runs of their own. -/
inductive Component where
  | copier
  | builder
  | custom (name : String)
  deriving DecidableEq, Repr

/-- The full name of a component. -/
def Component.name : Component → String
  | .copier => "pointer_path_engine::copier"
  | .builder => "pointer_path_engine::builder"
  | .custom name => name

/-- The severity of an event. -/
inductive Level where
  | trace
  | debug
  | info
  | error
  deriving DecidableEq, Repr

/-- The name of a severity. -/
def Level.name : Level → String
  | .trace => "TRACE"
  | .debug => "DEBUG"
  | .info => "INFO"
  | .error => "ERROR"

/-! ### The logging schema -/

/-- The canonical names of fields. -/
def fieldNames : List String :=
  ["component", "op", "event", "duration_ms", "path", "spec", "spec_count", "match_count",
    "err.kind", "err.code"]

/-- The canonical names of the stages of a run. -/
def stageNames : List String := ["start", "end", "end_error"]

/-- The canonical names, fields first. -/
def schemaNames : List String := fieldNames ++ stageNames

/-- The manner of logging asked for. -/
inductive Profile where
  | development
  | production
  | test
  deriving DecidableEq, Repr

namespace Profile

/-- The name of a profile. -/
def name : Profile → String
  | .development => "development"
  | .production => "production"
  | .test => "test"

/-- Every profile. -/
def all : List Profile := [development, production, test]

/-- The profile of a name. -/
def ofName? (s : String) : Option Profile := all.find? (·.name == s)

/-- The directive by which events are filtered unless another is given. -/
def directive : Profile → String
  | .development => "pointer_path=debug"
  | .production => "pointer_path=info"
  | .test => "pointer_path=trace"

end Profile

/-! ### Events -/

/-- One report of a run. -/
inductive Event where
  | compiledSelector (path : String) (stages : Nat)
  | compiledCopySpec (spec : String) (records : Nat)
  | copierReady (specs : Nat)
  | copySource (path : String) (matched : Nat)
  | noValue (key : String)
  | evicted (s : Segment)
  | started (component : Component) (operation : String) (specs : Nat)
  | ended (component : Component) (operation : String)
  | failed (component : Component) (operation : String) (error : PathError)

namespace Event

/-- The severity of an event. -/
def level : Event → Level
  | .evicted _ => .trace
  | .started .. | .ended .. => .info
  | .failed .. => .error
  | _ => .debug

/-- The component that reports an event. -/
def target : Event → String
  | .compiledSelector .. => "pointer_path_core::path::compiler"
  | .compiledCopySpec .. => "pointer_path_core::operation::decorator"
  | .copierReady _ | .copySource .. => Component.copier.name
  | .noValue _ => Component.builder.name
  | .evicted _ => "pointer_path_core::path::cache"
  | .started c .. | .ended c _ | .failed c .. => c.name

/-- Whether a duration belongs to an event. -/
def isTimed : Event → Bool
  | .ended .. | .failed .. => true
  | _ => false

/-- The operation whose run an event is a stage of. -/
def operation? : Event → Option String
  | .started _ op _ | .ended _ op | .failed _ op _ => some op
  | _ => none

/-- The stage of a run that an event reports. -/
def stage? : Event → Option String
  | .started .. => some "start"
  | .ended .. => some "end"
  | .failed .. => some "end_error"
  | _ => none

/-- The named texts of an event, in the order of their names. -/
def fields : Event → Entries String String
  | .compiledSelector path stages =>
    [("message", "compiled nested pointer"), ("path", path), ("stages", toString stages)]
  | .compiledCopySpec spec records =>
    [("froms", toString records), ("message", "compiled copy spec"), ("spec", spec)]
  | .copierReady specs => [("message", "copier ready"), ("spec_count", toString specs)]
  | .copySource path matched =>
    [("match_count", toString matched), ("message", "copy source"), ("path", path)]
  | .noValue key => [("key", key), ("message", "no value for build entry")]
  | .evicted s => [("message", "evicted cached pointer"), ("segment", s.text)]
  | .started c op specs =>
    [("component", c.name), ("event", "start"), ("op", op), ("spec_count", toString specs)]
  | .ended c op => [("component", c.name), ("event", "end"), ("op", op)]
  | .failed c op e =>
    [("component", c.name), ("err.code", e.report.code), ("err.kind", e.report.kind.name),
      ("error", e.report.text), ("event", "end_error"), ("op", op)]

/-- The text under a name in an event. -/
def field? (e : Event) (name : String) : Option String := Entries.get? e.fields name

/-- The events of a log that are stages of runs of one operation. -/
def ofOperation (op : String) (events : List Event) : List Event :=
  events.filter (·.operation? == some op)

end Event

end DocumentPath
