import FleetControl.Bytes

/-!
# Log messages and their severity
-/

namespace FleetControl

/-- How serious a message is; as a threshold, `off` lets none through. -/
inductive Severity where
  | trace
  | debug
  | info
  | warn
  | error
  | critical
  | off
  deriving DecidableEq, Repr

namespace Severity

def all : List Severity := [.trace, .debug, .info, .warn, .error, .critical, .off]

def name : Severity → Bytes
  | .trace => utf8 "trace"
  | .debug => utf8 "debug"
  | .info => utf8 "info"
  | .warn => utf8 "warn"
  | .error => utf8 "error"
  | .critical => utf8 "critical"
  | .off => utf8 "off"

/-- The place in the order of severities. -/
def level : Severity → Nat
  | .trace => 0
  | .debug => 1
  | .info => 2
  | .warn => 3
  | .error => 4
  | .critical => 5
  | .off => 6

/-- The severity of a name, spelled exactly. -/
def ofName? (name : Bytes) : Option Severity := all.find? (·.name == name)

/-- What answers a name that is none. -/
def unknown (name : Bytes) : Bytes := utf8 "unknown log level: " ++ name

end Severity

/-- A message for the log. -/
structure Notice where
  severity : Severity
  text : Bytes
  deriving DecidableEq, Repr

/-- Whether a log with the given threshold shows a message. -/
def Notice.isShown (threshold : Severity) (n : Notice) : Bool := threshold.level ≤ n.severity.level

end FleetControl
