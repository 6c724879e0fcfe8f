import FleetControl.Agent.Store
import FleetControl.Bytes.Hex
import FleetControl.Command.Store
import FleetControl.Connection.Registry
import FleetControl.Digest.Sha256
import FleetControl.Group.Resolver
import FleetControl.Group.Store
import FleetControl.Message.Frame
import FleetControl.Session.Ledger

/-!
# Sessions

The control plane follows every connection from its opening to its close.  A session is connected
until a message describes the agent, and from then on identified as that agent's; its state is kept
beside the instance that it carries.  A close drops the session, so that none is ever stored as
closed; a message would be refused on one that is.  Input that is not accepted is answered with a
rejection that tells nothing, leaves the session usable, and changes nothing but when the connection
was last heard from.
-/

namespace FleetControl

/-- How far a session has come. -/
inductive SessionState where
  /-- The connection is open, and its agent is not known yet. -/
  | connected
  /-- The agent has described itself. -/
  | identified
  /-- The connection is gone. -/
  | closed
  deriving DecidableEq, Repr

/-- The name by which operators are shown a state. -/
def SessionState.name : SessionState → Bytes
  | .connected => utf8 "Connected"
  | .identified => utf8 "Identified"
  | .closed => utf8 "Closed"

/-- What is known of a connection's agent. -/
structure Session where
  state : SessionState := .connected
  /-- The instance that the connection carries, once the agent has described itself. -/
  instanceId : Option Bytes := none
  lastSequence : Option UInt64 := none
  configHash : Option Bytes := none
  identifying : Attributes := ∅
  deriving DecidableEq

/-- All that the control plane knows. -/
structure Fleet where
  registry : Registry
  agents : AgentStore
  groups : GroupStore
  store : CommandStore
  sessions : Table Session := ∅
  ledgers : Table Ledger := ∅
  /-- The most commands in one reply. -/
  perReply : UInt64
  perReply_pos : 0 < perReply

namespace Fleet

/-- What a control plane is set up with. -/
structure Plan where
  livenessMs : Int64 := 60000
  shards : Nat := 16
  perReply : UInt64 := 16

/-- A control plane over a command log, without connections, agents and groups. -/
def setup (cursor : Cursor) (plan : Plan) (store : CommandStore) : Except SetupError Fleet := do
  let registry ← Registry.setup cursor plan.livenessMs Sharded.spread plan.shards
  let agents ← AgentStore.setup cursor Sharded.spread plan.shards
  if h : 0 < plan.perReply then
    return { registry, agents, groups := { cursor }, store, perReply := plan.perReply,
             perReply_pos := h }
  else throw .noCommandsPerReply

/-! ### Opening and closing -/

/-- A peer connects. -/
def connect (f : Fleet) (conn : Bytes) (now : Instant) : Except Registry.Refusal Fleet := do
  let registry ← f.registry.register conn now
  return { f with registry, sessions := f.sessions.insert conn {} }

/-- A connection is closed; one that is not open stays so. -/
def disconnect (f : Fleet) (conn : Bytes) : Fleet :=
  let f := { f with registry := f.registry.unregister conn }
  match f.sessions.get? conn with
  | none => f
  | some session =>
    let f := { f with sessions := f.sessions.erase conn }
    match session.instanceId with
    | none => f
    | some instanceId => { f with agents := f.agents.disconnect instanceId conn }

/-! ### What a message does -/

/-- The order keys of the commands that an instance acknowledges: those that exist and are for
it. -/
def acknowledgedKeys (f : Fleet) (instanceId : Bytes) (ids : List Bytes) : List Bytes :=
  ids.filterMap fun id =>
    match f.store.find id with
    | .ok c => if c.target == instanceId then some c.orderKey else none
    | .error _ => none

/-- Records the acknowledgements of an instance. -/
def acknowledge (f : Fleet) (instanceId : Bytes) (ids : List Bytes) : Fleet :=
  match f.acknowledgedKeys instanceId ids with
  | [] => f
  | keys =>
    let record (l : Option Ledger) := some ((l.getD {}).acknowledgeAll keys)
    { f with ledgers := f.ledgers.alter instanceId record }

/-- Records what a message says about its agent. -/
def recordReport (f : Fleet) (conn : Bytes) (m : AgentMessage) (group : Option Group)
    (now : Instant) : Fleet :=
  let report : AgentReport :=
    { instanceId := m.instanceId, connection := conn, description := m.description
      configHash := m.configHash, group := group.map (·.name), time := now }
  match f.agents.report report with
  | .ok (_, agents) => { f with agents }
  | .error _ => f

/-- The configuration to push: the group's, unless the agent runs it already. -/
def configToPush (group : Option Group) (configHash : Option Bytes) : Option PushedConfig := do
  let config ← (← group).remoteConfig
  let hash := Hex.encode (Sha256.digest config.body)
  if configHash == some hash then none else some ⟨config.body, config.contentType, hash⟩

/-- The ledger of an instance. -/
def ledger (f : Fleet) (instanceId : Bytes) : Ledger := (f.ledgers.get? instanceId).getD {}

/-- Adds the pending commands of an instance to a reply and moves its watermark. -/
def deliver (f : Fleet) (instanceId : Bytes) (reply : Reply) : Reply × Fleet :=
  let l := f.ledger instanceId
  match f.store.ofInstanceAfter instanceId l.watermark (l.window f.perReply).toNat with
  | .error _ => (reply, f)
  | .ok pending =>
    let picked := l.pick f.perReply.toNat pending
    let reply := { reply with commands := picked.commands.map Command.delivery }
    let reply := if picked.commands.any (·.kind == .reportFullState) then reply.requestFullState
      else reply
    if picked.watermark == l.watermark then (reply, f)
    else (reply, { f with ledgers := f.ledgers.insert instanceId (l.advance picked.watermark) })

/-- How a message's sequence number stands to the last one. -/
inductive Sequence where
  | duplicate
  | gap
  | inOrder
  deriving DecidableEq, Repr

/-- A number that is not past the last is a duplicate; one that leaves others out shows a gap. -/
def Sequence.of (last next : Option UInt64) : Sequence :=
  match last, next with
  | some last, some next =>
    if next ≤ last then .duplicate else if last + 1 < next then .gap else .inOrder
  | _, _ => .inOrder

/-- What a session learns from a message: its sequence number, description and hash. -/
def Session.learn (s : Session) (m : AgentMessage) : Session :=
  { s with
    lastSequence := m.sequenceNum.or s.lastSequence
    identifying := (m.description.map (·.identifying)).getD s.identifying
    configHash := m.configHash.or s.configHash }

/-- Whose session it is after a message.  A description binds a connection to the message's
instance; a message for another instance is refused. -/
def identify (f : Fleet) (conn : Bytes) (session : Session) (m : AgentMessage) :
    Option (Session × Fleet) :=
  if session.state = .connected then
    if m.description.isNone then some (session, f)
    else match f.registry.bind conn m.instanceId with
      | .error _ => none
      | .ok registry =>
        some ({ session with state := .identified, instanceId := some m.instanceId },
          { f with registry })
  else if session.instanceId = some m.instanceId then some (session, f)
  else none

/-- Answers a message on an identified session. -/
def serveInstance (f : Fleet) (conn instanceId : Bytes) (session : Session) (m : AgentMessage)
    (now : Instant) (reply : Reply) : Reply × Fleet :=
  let group := Group.resolve session.identifying f.groups.snapshot
  let f := f.recordReport conn m group now
  let f := f.acknowledge instanceId m.acknowledged
  f.deliver instanceId { reply with remoteConfig := configToPush group session.configHash }

/-- Answers a message that is not a duplicate. -/
def process (f : Fleet) (conn : Bytes) (session : Session) (m : AgentMessage) (now : Instant)
    (reply : Reply) : Reply × Fleet :=
  match f.identify conn session m with
  | none => (.rejection m.instanceId, f)
  | some (session, f) =>
    let session := Session.learn session m
    let f := { f with sessions := f.sessions.insert conn session }
    match session.state, session.instanceId with
    | .identified, some instanceId => f.serveInstance conn instanceId session m now reply
    | _, _ => (reply.requestFullState, f)

/-- Answers a message. -/
def receive (f : Fleet) (conn : Bytes) (m : AgentMessage) (now : Instant) : Reply × Fleet :=
  match f.sessions.get? conn with
  | none => (.rejection m.instanceId, f)
  | some session =>
    if session.state = .closed then (.rejection m.instanceId, f)
    else
      -- Being heard from counts for a duplicate too.
      let f := { f with registry := f.registry.touch conn now }
      let reply : Reply := { instanceId := m.instanceId }
      match Sequence.of session.lastSequence m.sequenceNum with
      | .duplicate => (reply, f)
      | .gap => f.process conn session m now reply.requestFullState
      | .inOrder => f.process conn session m now reply

/-- Answers a frame. -/
def receiveFrame (f : Fleet) (conn frame : Bytes) (now : Instant) : Reply × Fleet :=
  match AgentMessage.decode frame with
  | .ok m => f.receive conn m now
  | .error _ =>
    let f :=
      if f.sessions.contains conn then { f with registry := f.registry.touch conn now } else f
    (.rejection [], f)

/-! ### Reading -/

/-- What answers a question about a connection that has no session. -/
def noSession (conn : Bytes) : Fault :=
  .notFound (utf8 "no session for connection " ++ conn)

def sessionState (f : Fleet) (conn : Bytes) : Except Fault SessionState :=
  match f.sessions.get? conn with
  | some session => .ok session.state
  | none => .error (noSession conn)

def progress (f : Fleet) (instanceId : Bytes) : Progress := (f.ledger instanceId).progress

end Fleet

end FleetControl
