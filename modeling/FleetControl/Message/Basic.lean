import FleetControl.Attributes
import FleetControl.Command.Basic

/-!
# Messages

What an agent sends, and what it is answered.
-/

namespace FleetControl

/-- A message from an agent. -/
structure AgentMessage where
  instanceId : Bytes
  description : Option Description := none
  /-- The hash of the configuration that the agent runs. -/
  configHash : Option Bytes := none
  sequenceNum : Option UInt64 := none
  /-- The ids of commands that the agent has received. -/
  acknowledged : List Bytes := []
  deriving DecidableEq

/-- A configuration for an agent, with the hash of its body. -/
structure PushedConfig where
  body : Bytes
  contentType : Bytes
  hash : Bytes
  deriving DecidableEq, Repr

/-- A command as an agent gets it. -/
structure Delivery where
  id : Bytes
  kind : CommandKind
  data : Json

def Command.delivery (c : Command) : Delivery := ⟨c.id, c.kind, c.data⟩

inductive ReplyErrorKind where
  | badRequest
  | unavailable
  deriving DecidableEq, Repr

namespace ReplyErrorKind

def all : List ReplyErrorKind := [.badRequest, .unavailable]

def name : ReplyErrorKind → Bytes
  | .badRequest => utf8 "BadRequest"
  | .unavailable => utf8 "Unavailable"

def ofName? (name : Bytes) : Option ReplyErrorKind := all.find? (·.name == name)

end ReplyErrorKind

structure ReplyError where
  kind : ReplyErrorKind
  message : Bytes
  deriving DecidableEq, Repr

/-- An answer to an agent. -/
structure Reply where
  instanceId : Bytes := []
  remoteConfig : Option PushedConfig := none
  commands : List Delivery := []
  error : Option ReplyError := none
  flags : UInt32 := 0

namespace Reply

/-- The flag that asks an agent to report all it knows about itself. -/
def reportFullState : UInt32 := 1

def wantsFullState (r : Reply) : Bool := r.flags &&& reportFullState != 0

def requestFullState (r : Reply) : Reply := { r with flags := r.flags ||| reportFullState }

/-- What answers a message that is not accepted; it tells nothing about the cause. -/
def rejection (instanceId : Bytes) : Reply :=
  { instanceId, error := some ⟨.badRequest, utf8 "request rejected"⟩ }

end Reply

end FleetControl
