import FleetControl.Fault
import FleetControl.Instant
import FleetControl.Page.Listing
import FleetControl.Table.Sharded

/-!
# The connection registry

One entry for every connection that is open: the agent instance it carries, once that is known, and
when it was last heard from.  A connection is alive while that is less than the liveness threshold
ago.
-/

namespace FleetControl

/-- A connection as it is at the time of reading. -/
structure Connection where
  id : Bytes
  instanceId : Option Bytes
  lastHeard : Instant
  isAlive : Bool
  deriving DecidableEq, Repr

structure Registry.Entry where
  instanceId : Option Bytes := none
  lastHeard : Instant
  deriving DecidableEq, Repr

structure Registry where
  cursor : Cursor
  /-- How long a connection may be silent and still count as alive, in milliseconds. -/
  livenessMs : Int64
  entries : Sharded Registry.Entry

namespace Registry

/-- Why the registry refuses. -/
inductive Refusal where
  | noConnectionId
  | noInstanceId
  | taken (conn : Bytes)
  | notRegistered (conn : Bytes)
  | boundElsewhere (conn instanceId : Bytes)
  | notFound (conn : Bytes)
  | noneCarries (instanceId : Bytes)
  deriving DecidableEq, Repr

def Refusal.fault : Refusal → Fault
  | .noConnectionId => .validation (utf8 "connection id must not be empty")
  | .noInstanceId => .validation (utf8 "instance id must not be empty")
  | .taken conn => .alreadyExists (utf8 "connection " ++ conn ++ utf8 " is already registered")
  | .notRegistered conn => .notRegistered (utf8 "connection " ++ conn ++ utf8 " is not registered")
  | .boundElsewhere conn instanceId => .validation
      (utf8 "connection " ++ conn ++ utf8 " is already bound to instance " ++ instanceId)
  | .notFound conn => .notFound (utf8 "connection " ++ conn ++ utf8 " not found")
  | .noneCarries instanceId => .notFound (utf8 "no connection for instance " ++ instanceId)

/-- An empty registry. -/
def setup (cursor : Cursor) (livenessMs : Int64) (hash : Bytes → Nat) (shards : Nat) :
    Except SetupError Registry :=
  if h : 0 < shards then .ok ⟨cursor, livenessMs, .empty hash shards h⟩ else .error .noShards

/-- The threshold in nanoseconds. -/
def threshold (r : Registry) : Int64 := r.livenessMs * 1000000

/-- An entry as a connection at a time. -/
def view (r : Registry) (conn : Bytes) (e : Entry) (now : Instant) : Connection :=
  ⟨conn, e.instanceId, e.lastHeard, now - e.lastHeard < r.threshold⟩

/-! ### Changes -/

def register (r : Registry) (conn : Bytes) (now : Instant) : Except Refusal Registry :=
  if conn.isEmpty then .error .noConnectionId
  else if r.entries.contains conn then .error (.taken conn)
  else .ok { r with entries := r.entries.insert conn { lastHeard := now } }

/-- Records which instance a connection carries; once known it stays. -/
def bind (r : Registry) (conn instanceId : Bytes) : Except Refusal Registry :=
  if instanceId.isEmpty then .error .noInstanceId
  else match r.entries.get? conn with
    | none => .error (.notRegistered conn)
    | some e =>
      match e.instanceId with
      | some bound =>
        if bound == instanceId then .ok r else .error (.boundElsewhere conn bound)
      | none =>
        .ok { r with entries := r.entries.insert conn { e with instanceId := some instanceId } }

/-- Records that a connection was heard from; a time before the last changes nothing. -/
def touch (r : Registry) (conn : Bytes) (now : Instant) : Registry :=
  { r with entries := r.entries.modify conn fun e =>
    { e with lastHeard := e.lastHeard.later now } }

def unregister (r : Registry) (conn : Bytes) : Registry :=
  { r with entries := r.entries.erase conn }

/-! ### Reading -/

def find (r : Registry) (conn : Bytes) (now : Instant) : Except Refusal Connection :=
  match r.entries.get? conn with
  | some e => .ok (r.view conn e now)
  | none => .error (.notFound conn)

/-- A connection that carries an instance. -/
def carrying (r : Registry) (instanceId : Bytes) (now : Instant) : Except Refusal Connection :=
  match r.entries.entries.find? fun e => e.2.instanceId == some instanceId with
  | some (conn, e) => .ok (r.view conn e now)
  | none => .error (.noneCarries instanceId)

def isAlive (r : Registry) (conn : Bytes) (now : Instant) : Except Refusal Bool :=
  (r.find conn now).map (·.isAlive)

/-- The connections by id. -/
def list (r : Registry) (request : PageRequest) (now : Instant) :
    Except PageRequest.Refusal (Page Connection) :=
  paginate Connection.id (r.entries.toTable.toList.map fun (conn, e) => r.view conn e now) r.cursor
    request

def size (r : Registry) : Nat := r.entries.size

end Registry

end FleetControl
