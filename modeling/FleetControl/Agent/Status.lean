import FleetControl.Agent.Store
import FleetControl.Connection.Registry

/-!
# How the agents of a group fare
-/

namespace FleetControl

/-- How one agent is reached. -/
inductive Agent.Health where
  | healthy
  | unhealthy
  | notConnected
  deriving DecidableEq, Repr

/-- An agent is healthy while its connection is alive; a connection that is gone counts as none. -/
def Agent.health (a : Agent) (registry : Registry) (now : Instant) : Agent.Health :=
  match a.connection with
  | none => .notConnected
  | some conn =>
    match registry.isAlive conn now with
    | .ok true => .healthy
    | .ok false => .unhealthy
    | .error _ => .notConnected

/-- Counts of agents, altogether and by how they are reached. -/
structure GroupStatus where
  agents : Nat := 0
  connected : Nat := 0
  healthy : Nat := 0
  unhealthy : Nat := 0
  notConnected : Nat := 0
  deriving DecidableEq, Repr

namespace GroupStatus

/-- The counts with one more agent. -/
def add (s : GroupStatus) : Agent.Health → GroupStatus
  | .healthy => { s with
      agents := s.agents + 1, connected := s.connected + 1, healthy := s.healthy + 1 }
  | .unhealthy => { s with
      agents := s.agents + 1, connected := s.connected + 1, unhealthy := s.unhealthy + 1 }
  | .notConnected => { s with agents := s.agents + 1, notConnected := s.notConnected + 1 }

/-- The counts for a list of agents. -/
def ofAgents (agents : List Agent) (registry : Registry) (now : Instant) : GroupStatus :=
  agents.foldl (fun s a => s.add (a.health registry now)) {}

def toJson (s : GroupStatus) : Json :=
  .object [
    (utf8 "numAgents", .ofNat s.agents),
    (utf8 "numConnectedAgents", .ofNat s.connected),
    (utf8 "numHealthyAgents", .ofNat s.healthy),
    (utf8 "numUnhealthyAgents", .ofNat s.unhealthy),
    (utf8 "numNotConnectedAgents", .ofNat s.notConnected)]

end GroupStatus

end FleetControl
