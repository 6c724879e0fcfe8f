import FleetControl.Attributes
import FleetControl.Fault
import FleetControl.Instant
import FleetControl.Page.Listing
import FleetControl.Table.Sharded

/-!
# The agent store

What was last learned about every agent instance that identified itself.  Records outlive
connections, so an agent that has gone can still be looked at.
-/

namespace FleetControl

structure Agent where
  instanceId : Bytes
  description : Description := {}
  /-- The hash of the configuration that the agent last said it runs. -/
  configHash : Option Bytes := none
  /-- The group it belonged to at its last report. -/
  group : Option Bytes := none
  /-- The connection that carries the agent. -/
  connection : Option Bytes := none
  firstSeen : Instant := Instant.epoch
  lastReported : Instant := Instant.epoch
  deriving DecidableEq

def Agent.isConnected (a : Agent) : Bool := a.connection.isSome

/-- What one message says about an agent. -/
structure AgentReport where
  instanceId : Bytes
  connection : Bytes
  /-- Absent keeps what is known. -/
  description : Option Description := none
  /-- Absent keeps what is known. -/
  configHash : Option Bytes := none
  /-- Replaces what is known even if absent. -/
  group : Option Bytes := none
  time : Instant

structure AgentStore where
  cursor : Cursor
  agents : Sharded Agent

namespace AgentStore

/-- Why the store refuses. -/
inductive Refusal where
  | noInstanceId
  | notFound (instanceId : Bytes)
  deriving DecidableEq, Repr

def Refusal.fault : Refusal → Fault
  | .noInstanceId => .validation (utf8 "instance id must not be empty")
  | .notFound instanceId => .notFound (utf8 "agent " ++ instanceId ++ utf8 " not found")

/-- An empty store. -/
def setup (cursor : Cursor) (hash : Bytes → Nat) (shards : Nat) : Except SetupError AgentStore :=
  if h : 0 < shards then .ok ⟨cursor, .empty hash shards h⟩ else .error .noShards

/-- A record after a report. -/
def applyReport (known : Option Agent) (r : AgentReport) : Agent :=
  let a := known.getD { instanceId := r.instanceId, firstSeen := r.time }
  { a with
    description := r.description.getD a.description
    configHash := r.configHash.or a.configHash
    group := r.group
    connection := some r.connection
    lastReported := a.lastReported.later r.time }

/-- Makes or updates the record of a report's instance. -/
def report (s : AgentStore) (r : AgentReport) : Except Refusal (Agent × AgentStore) :=
  if r.instanceId.isEmpty then .error .noInstanceId
  else
    let a := applyReport (s.agents.get? r.instanceId) r
    .ok (a, { s with agents := s.agents.insert r.instanceId a })

/-- A record after a connection was closed: another connection stays. -/
def Agent.dropConnection (a : Agent) (conn : Bytes) : Agent :=
  if a.connection == some conn then { a with connection := none } else a

/-- Records that a connection no longer carries an instance. -/
def disconnect (s : AgentStore) (instanceId conn : Bytes) : AgentStore :=
  { s with agents := s.agents.modify instanceId (Agent.dropConnection · conn) }

def find (s : AgentStore) (instanceId : Bytes) : Except Refusal Agent :=
  match s.agents.get? instanceId with
  | some a => .ok a
  | none => .error (.notFound instanceId)

/-- The agents that satisfy a test, by instance id. -/
def listWhere (s : AgentStore) (keep : Agent → Bool) (request : PageRequest) :
    Except PageRequest.Refusal (Page Agent) :=
  paginate Agent.instanceId (s.agents.toTable.values.filter keep) s.cursor request

def list (s : AgentStore) (request : PageRequest) : Except PageRequest.Refusal (Page Agent) :=
  s.listWhere (fun _ => true) request

/-- The agents that a selector accepts, by instance id. -/
def listSelected (s : AgentStore) (selector : Selector) (request : PageRequest) :
    Except PageRequest.Refusal (Page Agent) :=
  s.listWhere (fun a => selector.accepts a.description) request

def size (s : AgentStore) : Nat := s.agents.size

end AgentStore

end FleetControl
