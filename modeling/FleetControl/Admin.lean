import FleetControl.Agent.Status
import FleetControl.Group.Record
import FleetControl.Session.Handler

/-!
# The administrative surface

What operators ask of the control plane.  Every answer is an HTTP status and a JSON body; a
refusal's body names the kind of fault and says what is wrong.
-/

namespace FleetControl

/-- What an operator is answered: a status and a body. -/
structure AdminResponse where
  status : Nat
  body : Json

namespace AdminResponse

/-- The request was granted. -/
def success (body : Json) : AdminResponse := ⟨200, body⟩

/-- The request was granted and has made something. -/
def created (body : Json) : AdminResponse := ⟨201, body⟩

/-- Success with nothing to show. -/
def noContent : AdminResponse := ⟨204, .null⟩

/-- The request was refused. -/
def ofFault (f : Fault) : AdminResponse :=
  ⟨f.kind.status, .object [(utf8 "error", .str f.kind.name), (utf8 "message", .str f.message)]⟩

/-- The answer to an operation that yields a value or a fault. -/
def ofResult {α : Type} (result : Except Fault α) (answer : α → AdminResponse) : AdminResponse :=
  match result with
  | .ok a => answer a
  | .error f => ofFault f

end AdminResponse

/-! ### What answers show -/

/-- The JSON of a page, with the token that continues it. -/
def Page.toJson {α : Type} (item : α → Json) (p : Page α) : Json :=
  .object [
    (utf8 "items", .arr (p.items.map item)),
    (utf8 "continue", .str p.token),
    (utf8 "remainingItemCount", .ofNat p.remaining)]

/-- The JSON by which operators are shown a connection. -/
def Connection.toJson (c : Connection) : Json :=
  .object [
    (utf8 "id", .str c.id),
    (utf8 "instanceId", .ofText? c.instanceId),
    (utf8 "lastCommunicatedAtUnixNano", .ofInt64 c.lastHeard),
    (utf8 "alive", .bool c.isAlive)]

/-- The JSON by which operators are shown an agent. -/
def Agent.toJson (a : Agent) : Json :=
  .object [
    (utf8 "instanceId", .str a.instanceId),
    (utf8 "description", a.description.toJson),
    (utf8 "reportedConfigHash", .ofText? a.configHash),
    (utf8 "effectiveAgentGroup", .ofText? a.group),
    (utf8 "connectionId", .ofText? a.connection),
    (utf8 "connected", .bool a.isConnected),
    (utf8 "firstSeenAtUnixNano", .ofInt64 a.firstSeen),
    (utf8 "lastReportedAtUnixNano", .ofInt64 a.lastReported)]

namespace Fleet

/-! ### Commands -/

/-- Saves a command and shows it. -/
def saveCommand (f : Fleet) (now : Instant) (request : CommandLog.Request) :
    AdminResponse × Fleet :=
  let (result, store) := f.store.save now none request
  (.ofResult result fun c => .created c.toJson, { f with store })

/-- Asks an agent to take a configuration. -/
def updateAgentConfig (f : Fleet) (now : Instant) (request : Json) : AdminResponse × Fleet :=
  let refuse (message : Bytes) := (AdminResponse.ofFault (.validation message), f)
  if !request.isObject then refuse (utf8 "request must be a JSON object")
  else match (request.get? (utf8 "targetInstanceId")).bind Json.str? with
    | none => refuse (utf8 "targetInstanceId must be a string")
    | some target =>
      match request.given? (utf8 "remoteConfig") with
      | none => refuse (utf8 "remoteConfig is required")
      | some config =>
        f.saveCommand now ⟨.updateAgentConfig, target, .object [(utf8 "remoteConfig", config)]⟩

/-- Saves a command of a named kind. -/
def issueCommand (f : Fleet) (now : Instant) (kind target : Bytes) (data : Json) :
    AdminResponse × Fleet :=
  match CommandKind.ofName? kind with
  | none => (.ofFault (.validation (CommandKind.unknown kind)), f)
  | some kind => f.saveCommand now ⟨kind, target, data⟩

/-- Shows a command. -/
def getCommand (f : Fleet) (id : Bytes) : AdminResponse :=
  .ofResult (f.store.find id) fun c => .success c.toJson

/-- Lists the commands. -/
def listCommands (f : Fleet) (request : PageRequest) : AdminResponse :=
  .ofResult (f.store.list request) fun page => .success (page.toJson Command.toJson)

/-- Lists all commands of an instance, on one page. -/
def listCommandsFor (f : Fleet) (instanceId : Bytes) : AdminResponse :=
  .ofResult (f.store.ofInstance instanceId) fun commands =>
    .success (Page.toJson Command.toJson { items := commands })

/-! ### Connections and agents -/

/-- Lists the connections. -/
def listConnections (f : Fleet) (request : PageRequest) (now : Instant) : AdminResponse :=
  .ofResult ((f.registry.list request now).mapError PageRequest.Refusal.fault) fun page =>
    .success (page.toJson Connection.toJson)

/-- Shows a connection. -/
def getConnection (f : Fleet) (conn : Bytes) (now : Instant) : AdminResponse :=
  .ofResult ((f.registry.find conn now).mapError Registry.Refusal.fault) fun c => .success c.toJson

/-- Shows an agent. -/
def getAgent (f : Fleet) (instanceId : Bytes) : AdminResponse :=
  .ofResult ((f.agents.find instanceId).mapError AgentStore.Refusal.fault) fun a =>
    .success a.toJson

/-- Lists the agents. -/
def listAgents (f : Fleet) (request : PageRequest) : AdminResponse :=
  .ofResult ((f.agents.list request).mapError PageRequest.Refusal.fault) fun page =>
    .success (page.toJson Agent.toJson)

/-- Lists the agents that a selector accepts. -/
def listAgentsBySelector (f : Fleet) (selector : Selector) (request : PageRequest) :
    AdminResponse :=
  let result := f.agents.listSelected selector request
  .ofResult (result.mapError PageRequest.Refusal.fault) fun page =>
    .success (page.toJson Agent.toJson)

/-- A group by name, or the fault of there being none. -/
def findGroup (f : Fleet) (name : Bytes) : Except Fault Group :=
  (f.groups.find name).mapError GroupStore.Refusal.fault

/-- Lists the agents of a group. -/
def listAgentsByGroup (f : Fleet) (name : Bytes) (request : PageRequest) : AdminResponse :=
  .ofResult (f.findGroup name) fun g => f.listAgentsBySelector g.selector request

/-! ### Groups -/

/-- Shows a changed group and keeps the change, or shows the fault. -/
def keepGroups {α : Type} (f : Fleet) (result : Except GroupStore.Refusal (α × GroupStore))
    (answer : α → AdminResponse) : AdminResponse × Fleet :=
  match result with
  | .ok (a, groups) => (answer a, { f with groups })
  | .error cause => (.ofFault cause.fault, f)

/-- Makes a group of a request. -/
def createGroup (f : Fleet) (request : Json) (user : Bytes) (now : Instant) :
    AdminResponse × Fleet :=
  match Group.ofJson request with
  | .error cause => (.ofFault cause.fault, f)
  | .ok g => f.keepGroups (f.groups.create (g.stampCreated now user)) fun g => .created g.toJson

/-- Changes a group to what a request says. -/
def updateGroup (f : Fleet) (name : Bytes) (request : Json) (user : Bytes) (now : Instant) :
    AdminResponse × Fleet :=
  match Group.ofJson request with
  | .error cause => (.ofFault cause.fault, f)
  | .ok g =>
    if g.name != name then
      (.ofFault (.validation (utf8 "name in body does not match " ++ name)), f)
    else f.keepGroups (f.groups.update g now user) fun g => .success g.toJson

/-- Deletes a group. -/
def deleteGroup (f : Fleet) (name user : Bytes) (now : Instant) : AdminResponse × Fleet :=
  f.keepGroups ((f.groups.delete name now user).map ((), ·)) fun _ => .noContent

/-- The agents that a group selects, in numbers. -/
def groupStatus (f : Fleet) (g : Group) (now : Instant) : Except Fault GroupStatus := do
  let members ← (f.agents.listSelected g.selector {}).mapError PageRequest.Refusal.fault
  return .ofAgents members.items f.registry now

/-- A group with the numbers of its agents. -/
def getGroup (f : Fleet) (name : Bytes) (now : Instant) : AdminResponse :=
  .ofResult (f.findGroup name) fun g =>
    .ofResult (f.groupStatus g now) fun status =>
      .success (.object (g.members ++ [(utf8 "status", status.toJson)]))

/-- Lists the groups, with or without those that are deleted. -/
def listGroups (f : Fleet) (request : PageRequest) (includeDeleted : Bool) : AdminResponse :=
  .ofResult ((f.groups.list request includeDeleted).mapError PageRequest.Refusal.fault) fun page =>
    .success (page.toJson Group.toJson)

/-- The group that an agent with these identifying attributes belongs to. -/
def resolveGroup (f : Fleet) (identifying : Attributes) : AdminResponse :=
  match Group.resolve identifying f.groups.snapshot with
  | some g => .success g.toJson
  | none => .ofFault (.notFound (utf8 "no agent group matches"))

end Fleet

end FleetControl
