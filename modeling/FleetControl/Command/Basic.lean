import FleetControl.Instant
import FleetControl.Json.Writer

/-!
# Commands

A command tells one agent instance to do something.  Commands are put in order by their order key,
whose first twenty characters are the time of creation.
-/

namespace FleetControl

inductive CommandKind where
  | updateAgentConfig
  | reportFullState
  | restart
  deriving DecidableEq, Repr

namespace CommandKind

def all : List CommandKind := [.updateAgentConfig, .reportFullState, .restart]

def name : CommandKind → Bytes
  | .updateAgentConfig => utf8 "UpdateAgentConfig"
  | .reportFullState => utf8 "ReportFullState"
  | .restart => utf8 "Restart"

def ofName? (name : Bytes) : Option CommandKind := all.find? (·.name == name)

/-- What answers a name that is none. -/
def unknown (name : Bytes) : Bytes := utf8 "unknown command kind: " ++ name

end CommandKind

structure Command where
  id : Bytes
  kind : CommandKind
  target : Bytes
  data : Json
  createdAt : Instant

namespace Command

/-- The key that commands are put in order by. -/
def orderKey (c : Command) : Bytes :=
  Decimal.ofIntFilled 20 c.createdAt.toInt ++ 0x2f :: c.id

end Command

end FleetControl
