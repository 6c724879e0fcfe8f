import FleetControl.Fault
import FleetControl.Json.Reader
import FleetControl.Json.Writer
import FleetControl.Message.Basic

/-!
# Messages as frames

A frame is one JSON object on one line.  Members that a message lacks are left out when it is
written, and members that are absent or null are taken as lacking when it is read.  Text that is
not well-formed is repaired in writing, so a frame can always be read.
-/

namespace FleetControl

/-- Why a frame is no message. -/
inductive FrameRefusal where
  | notJson
  | notObject
  | noInstanceId
  | notObjectField (field : Bytes)
  | badAttributes (cause : Attributes.Refusal)
  | notTextField (field : Bytes)
  | badSequence
  | acksNotArray
  | ackNotText
  | configNotText
  | commandsNotArray
  | commandNotObject
  | commandIncomplete
  | unknownKind (name : Bytes)
  | errorIncomplete
  | unknownError (name : Bytes)
  | badFlags
  deriving DecidableEq, Repr

namespace FrameRefusal

def message : FrameRefusal → Bytes
  | .notJson => utf8 "frame is not valid JSON"
  | .notObject => utf8 "frame must be a JSON object"
  | .noInstanceId => utf8 "instanceId must be a non-empty string"
  | .notObjectField field => field ++ utf8 " must be an object"
  | .badAttributes cause => cause.message
  | .notTextField field => field ++ utf8 " must be a string"
  | .badSequence => utf8 "sequenceNum must be a non-negative integer"
  | .acksNotArray => utf8 "acknowledgedCommandIds must be an array"
  | .ackNotText => utf8 "acknowledgedCommandIds must contain strings"
  | .configNotText => utf8 "remoteConfig fields must be strings"
  | .commandsNotArray => utf8 "commands must be an array"
  | .commandNotObject => utf8 "command entries must be objects"
  | .commandIncomplete => utf8 "command entries need id and kind"
  | .unknownKind name => CommandKind.unknown name
  | .errorIncomplete => utf8 "errorResponse needs a type"
  | .unknownError name => utf8 "unknown error type: " ++ name
  | .badFlags => utf8 "flags must be a non-negative integer"

def fault (r : FrameRefusal) : Fault := .protocol r.message

end FrameRefusal

namespace Frame

/-- The object that a frame holds. -/
def parse (frame : Bytes) : Except FrameRefusal Json :=
  match Json.parse? frame with
  | none => .error .notJson
  | some j => if j.isObject then .ok j else .error .notObject

/-- A member that is a text, if it is there. -/
def text? (j : Json) (field : Bytes) : Except FrameRefusal (Option Bytes) :=
  match j.given? field with
  | none => .ok none
  | some (.str s) => .ok (some s)
  | some _ => .error (.notTextField field)

/-- A member that is an object, if it is there. -/
def object? (j : Json) (field : Bytes) : Except FrameRefusal (Option Json) :=
  match j.given? field with
  | none => .ok none
  | some v => if v.isObject then .ok (some v) else .error (.notObjectField field)

def readAttributes (j : Json) (field : Bytes) : Except FrameRefusal Attributes :=
  (Attributes.read j field field).mapError .badAttributes

end Frame

namespace AgentMessage

/-- The JSON of a message, without what it does not say. -/
def toJson (m : AgentMessage) : Json :=
  .object (
    [(utf8 "instanceId", .str m.instanceId)] ++
    (m.description.map fun d => (utf8 "agentDescription", d.toJson)).toList ++
    (m.configHash.map fun h => (utf8 "reportedConfigHash", Json.str h)).toList ++
    (m.sequenceNum.map fun n => (utf8 "sequenceNum", Json.unsigned n)).toList ++
    (if m.acknowledged.isEmpty then []
      else [(utf8 "acknowledgedCommandIds", .arr (m.acknowledged.map .str))]))

/-- The frame of a message. -/
def encode (m : AgentMessage) : Bytes := m.toJson.writeRepaired

/-- The description of a message, if it has one. -/
def readDescription (j : Json) : Except FrameRefusal (Option Description) := do
  match ← Frame.object? j (utf8 "agentDescription") with
  | none => return none
  | some d =>
    let identifying ← Frame.readAttributes d (utf8 "identifyingAttributes")
    let nonIdentifying ← Frame.readAttributes d (utf8 "nonIdentifyingAttributes")
    return some { identifying, nonIdentifying }

/-- The sequence number of a message, if it has one. -/
def readSequence (j : Json) : Except FrameRefusal (Option UInt64) :=
  match j.given? (utf8 "sequenceNum") with
  | none => .ok none
  | some (.unsigned n) => .ok (some n)
  | some _ => .error .badSequence

/-- The ids that a message acknowledges; none if it names none. -/
def readAcknowledged (j : Json) : Except FrameRefusal (List Bytes) :=
  match j.given? (utf8 "acknowledgedCommandIds") with
  | none => .ok []
  | some (.arr items) => items.mapM fun
    | .str s => .ok s
    | _ => .error .ackNotText
  | some _ => .error .acksNotArray

def ofJson (j : Json) : Except FrameRefusal AgentMessage := do
  match (j.get? (utf8 "instanceId")).bind Json.str? with
  | none => throw .noInstanceId
  | some instanceId =>
    if instanceId.isEmpty then throw .noInstanceId
    let description ← readDescription j
    let configHash ← Frame.text? j (utf8 "reportedConfigHash")
    let sequenceNum ← readSequence j
    let acknowledged ← readAcknowledged j
    return { instanceId, description, configHash, sequenceNum, acknowledged }

/-- The message in a frame. -/
def decode (frame : Bytes) : Except FrameRefusal AgentMessage := do ofJson (← Frame.parse frame)

end AgentMessage

/-! ### Answers -/

def Delivery.toJson (d : Delivery) : Json :=
  .object [(utf8 "id", .str d.id), (utf8 "kind", .str d.kind.name), (utf8 "data", d.data)]

def PushedConfig.toJson (c : PushedConfig) : Json :=
  .object [(utf8 "body", .str c.body), (utf8 "contentType", .str c.contentType),
    (utf8 "configHash", .str c.hash)]

def ReplyError.toJson (e : ReplyError) : Json :=
  .object [(utf8 "type", .str e.kind.name), (utf8 "message", .str e.message)]

namespace Reply

def toJson (r : Reply) : Json :=
  .object (
    [(utf8 "instanceId", .str r.instanceId), (utf8 "flags", .ofNat r.flags.toNat)] ++
    (r.remoteConfig.map fun c => (utf8 "remoteConfig", c.toJson)).toList ++
    (if r.commands.isEmpty then []
      else [(utf8 "commands", .arr (r.commands.map Delivery.toJson))]) ++
    (r.error.map fun e => (utf8 "errorResponse", e.toJson)).toList)

/-- The frame of an answer. -/
def encode (r : Reply) : Bytes := r.toJson.writeRepaired

/-- The configuration that a reply pushes, if it pushes one. -/
def readConfig (j : Json) : Except FrameRefusal (Option PushedConfig) := do
  match ← Frame.object? j (utf8 "remoteConfig") with
  | none => return none
  | some c =>
    match Frame.text? c (utf8 "body"), Frame.text? c (utf8 "contentType"),
        Frame.text? c (utf8 "configHash") with
    | .ok body, .ok contentType, .ok hash =>
      return some ⟨body.getD [], contentType.getD [], hash.getD []⟩
    | _, _, _ => throw .configNotText

/-- A command of a reply. -/
def readDelivery (j : Json) : Except FrameRefusal Delivery := do
  if !j.isObject then throw .commandNotObject
  match Frame.text? j (utf8 "id"), Frame.text? j (utf8 "kind") with
  | .ok (some id), .ok (some name) =>
    match CommandKind.ofName? name with
    | some kind => return ⟨id, kind, (j.get? (utf8 "data")).getD (.obj [])⟩
    | none => throw (.unknownKind name)
  | _, _ => throw .commandIncomplete

/-- The commands of a reply; none if it bears none. -/
def readCommands (j : Json) : Except FrameRefusal (List Delivery) :=
  match j.given? (utf8 "commands") with
  | none => .ok []
  | some (.arr items) => items.mapM readDelivery
  | some _ => .error .commandsNotArray

/-- The error of a reply, if it is one. -/
def readError (j : Json) : Except FrameRefusal (Option ReplyError) := do
  match ← Frame.object? j (utf8 "errorResponse") with
  | none => return none
  | some e =>
    match Frame.text? e (utf8 "type"), Frame.text? e (utf8 "message") with
    | .ok (some name), .ok message =>
      match ReplyErrorKind.ofName? name with
      | some kind => return some ⟨kind, message.getD []⟩
      | none => throw (.unknownError name)
    | _, _ => throw .errorIncomplete

/-- The flags; a number past the largest word keeps its low bits. -/
def readFlags (j : Json) : Except FrameRefusal UInt32 :=
  match j.given? (utf8 "flags") with
  | none => .ok 0
  | some (.unsigned n) => .ok n.toUInt32
  | some _ => .error .badFlags

def ofJson (j : Json) : Except FrameRefusal Reply := do
  let instanceId ← Frame.text? j (utf8 "instanceId")
  let remoteConfig ← readConfig j
  let commands ← readCommands j
  let error ← readError j
  let flags ← readFlags j
  return { instanceId := instanceId.getD [], remoteConfig, commands, error, flags }

/-- The answer in a frame. -/
def decode (frame : Bytes) : Except FrameRefusal Reply := do ofJson (← Frame.parse frame)

end Reply

end FleetControl
