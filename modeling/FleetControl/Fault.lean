import FleetControl.Bytes.Hex

/-!
# Faults

What an operation answers when it refuses: a kind, which fixes the status of an administrative
response, and a message.
-/

namespace FleetControl

/-- The kinds of fault. -/
inductive Fault.Kind where
  | notFound
  | alreadyExists
  | invalidCursor
  | validation
  | protocol
  | storage
  | notRegistered
  deriving DecidableEq, Repr

namespace Fault.Kind

def all : List Fault.Kind :=
  [.notFound, .alreadyExists, .invalidCursor, .validation, .protocol, .storage, .notRegistered]

/-- The stable name of a kind in answers. -/
def name : Fault.Kind → Bytes
  | .notFound => utf8 "NotFound"
  | .alreadyExists => utf8 "AlreadyExists"
  | .invalidCursor => utf8 "InvalidCursor"
  | .validation => utf8 "ValidationError"
  | .protocol => utf8 "ProtocolError"
  | .storage => utf8 "StorageError"
  | .notRegistered => utf8 "NotRegistered"

/-- The HTTP status that answers a fault of this kind. -/
def status : Fault.Kind → Nat
  | .notFound | .notRegistered => 404
  | .alreadyExists => 409
  | .invalidCursor | .validation | .protocol => 400
  | .storage => 500

end Fault.Kind

/-- A refusal. -/
structure Fault where
  kind : Fault.Kind
  message : Bytes
  deriving DecidableEq, Repr

namespace Fault

def notFound (message : Bytes) : Fault := ⟨.notFound, message⟩
def alreadyExists (message : Bytes) : Fault := ⟨.alreadyExists, message⟩
def invalidCursor (message : Bytes) : Fault := ⟨.invalidCursor, message⟩
def validation (message : Bytes) : Fault := ⟨.validation, message⟩
def protocol (message : Bytes) : Fault := ⟨.protocol, message⟩
def storage (message : Bytes) : Fault := ⟨.storage, message⟩
def notRegistered (message : Bytes) : Fault := ⟨.notRegistered, message⟩

end Fault

/-- What makes it impossible to set up a part of the control plane. -/
inductive SetupError where
  | badSecret (cause : Hex.Refusal)
  | shortSecret
  | noShards
  | noCommandsPerReply
  deriving DecidableEq, Repr

def SetupError.message : SetupError → Bytes
  | .badSecret cause => utf8 "cursorSecret: " ++ cause.message
  | .shortSecret => utf8 "pagination secret must be at least 16 bytes"
  | .noShards => utf8 "shard count must be positive"
  | .noCommandsPerReply => utf8 "max commands per reply must be positive"

end FleetControl
