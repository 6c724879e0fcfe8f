import FleetControl.Command.Basic
import FleetControl.Fault
import FleetControl.Json.Reader

/-!
# Commands as JSON

The record of a command is what answers show and what the journal keeps.
-/

namespace FleetControl.Command

/-- Why something is no command. -/
inductive Refusal where
  | notObject
  | missingFields
  | unknownKind (name : Bytes)
  | noTarget
  | dataNotObject
  | dataNotText
  deriving DecidableEq, Repr

def Refusal.message : Refusal → Bytes
  | .notObject => utf8 "command must be a JSON object"
  | .missingFields => utf8 "command is missing required fields"
  | .unknownKind name => CommandKind.unknown name
  | .noTarget => utf8 "target instance id must not be empty"
  | .dataNotObject => utf8 "command data must be a JSON object"
  | .dataNotText => utf8 "command data is not valid UTF-8: ill-formed text"

def Refusal.fault (r : Refusal) : Fault := .validation r.message

def toJson (c : Command) : Json :=
  .object [
    (utf8 "id", .str c.id),
    (utf8 "kind", .str c.kind.name),
    (utf8 "targetInstanceId", .str c.target),
    (utf8 "data", c.data),
    (utf8 "createdAtUnixNano", .ofInt64 c.createdAt)]

/-- A member that is a text. -/
def textField (j : Json) (name : Bytes) : Except Refusal Bytes :=
  match (j.get? name).bind Json.str? with
  | some s => .ok s
  | none => .error .missingFields

def kindOfName (name : Bytes) : Except Refusal CommandKind :=
  match CommandKind.ofName? name with
  | some kind => .ok kind
  | none => .error (.unknownKind name)

/-- The command that a record stands for.  Data that is absent is an empty object. -/
def ofJson (j : Json) : Except Refusal Command := do
  if !j.isObject then throw .notObject
  let id ← textField j (utf8 "id")
  let kindName ← textField j (utf8 "kind")
  let target ← textField j (utf8 "targetInstanceId")
  let createdAt ← match (j.get? (utf8 "createdAtUnixNano")).bind Json.int64? with
    | some n => pure n
    | none => throw Refusal.missingFields
  let kind ← kindOfName kindName
  return ⟨id, kind, target, (j.get? (utf8 "data")).getD (.obj []), createdAt⟩

/-- Data has to be an object or null, with well-formed text throughout. -/
def checkData (data : Json) : Except Refusal Unit :=
  if !data.isNull && !data.isObject then .error .dataNotObject
  else if data.isText then .ok ()
  else .error .dataNotText

end FleetControl.Command
