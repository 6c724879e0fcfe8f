import FleetControl.Command.Log

/-!
# The command store

The log as the rest of the control plane reaches it.  While there is an outage every call answers
with its fault and the log stays as it is.
-/

namespace FleetControl

structure CommandStore where
  log : CommandLog
  ids : IdSource
  outage : Option Fault := none

namespace CommandStore

/-- What `call` answers, or the fault of an outage. -/
def reach {α : Type} (s : CommandStore) (call : Except CommandLog.Refusal α) : Except Fault α :=
  match s.outage with
  | some fault => .error fault
  | none => call.mapError CommandLog.Refusal.fault

def save (s : CommandStore) (now : Instant) (room : Option Nat) (r : CommandLog.Request) :
    Except Fault Command × CommandStore :=
  match s.outage with
  | some fault => (.error fault, s)
  | none =>
    let saved := s.log.save s.ids now room r
    (saved.result.mapError CommandLog.Refusal.fault, { s with log := saved.log, ids := saved.ids })

def find (s : CommandStore) (id : Bytes) : Except Fault Command := s.reach (s.log.find id)

def ofInstance (s : CommandStore) (instanceId : Bytes) : Except Fault (List Command) :=
  s.reach (.ok (s.log.ofInstance instanceId))

def ofInstanceAfter (s : CommandStore) (instanceId after : Bytes) (limit : Nat) :
    Except Fault (List Command) :=
  s.reach (.ok (s.log.ofInstanceAfter instanceId after limit))

def list (s : CommandStore) (request : PageRequest) : Except Fault (Page Command) :=
  s.reach (s.log.list request)

end CommandStore

end FleetControl
