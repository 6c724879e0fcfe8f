import FleetControl.Bytes.Hex
import FleetControl.Fault
import FleetControl.Json.Reader
import FleetControl.Severity

/-!
# Settings of the control plane

A JSON object gives the settings; keys it lacks keep their defaults and keys that are unknown are
ignored.  Keys are checked in one fixed order, and the first that is wrong is reported.
-/

namespace FleetControl

structure Settings where
  listenAddress : Bytes := utf8 "0.0.0.0"
  listenPort : UInt16 := 4320
  /-- How long a connection may be silent and still count as alive, in milliseconds. -/
  livenessMs : Int64 := 60000
  maxCommandsPerReply : UInt64 := 16
  shardCount : Nat := 16
  /-- The secret behind continue tokens, in hexadecimal; empty for a random one. -/
  cursorSecret : Bytes := []
  journalPath : Option Bytes := none
  logLevel : Severity := .info
  deriving DecidableEq, Repr

namespace Settings

/-- The known keys. -/
inductive Key where
  | listenAddress
  | listenPort
  | livenessMs
  | maxCommandsPerReply
  | shardCount
  | cursorSecret
  | journalPath
  | logLevel
  deriving DecidableEq, Repr

def Key.name : Key → Bytes
  | .listenAddress => utf8 "listenAddress"
  | .listenPort => utf8 "listenPort"
  | .livenessMs => utf8 "livenessThresholdMs"
  | .maxCommandsPerReply => utf8 "maxCommandsPerReply"
  | .shardCount => utf8 "shardCount"
  | .cursorSecret => utf8 "cursorSecret"
  | .journalPath => utf8 "commandJournalPath"
  | .logLevel => utf8 "logLevel"

/-- Why settings are refused.  A secret that is no text has its own wording. -/
inductive Refusal where
  | notJson
  | notObject
  | bad (key : Key)
  | secretNotText
  deriving DecidableEq, Repr

/-- What the value of a key has to be. -/
def Key.requirement : Key → Bytes
  | .listenAddress => utf8 "must be a non-empty string"
  | .listenPort => utf8 "must be an integer in [0, 65535]"
  | .livenessMs | .maxCommandsPerReply => utf8 "must be a positive integer"
  | .shardCount => utf8 "must be an integer in [1, 4096]"
  | .cursorSecret => utf8 "must be at least 16 hex-encoded bytes"
  | .journalPath => utf8 "must be a non-empty string or null"
  | .logLevel => utf8 "must be one of trace, debug, info, warn, error, critical, off"

def Refusal.message : Refusal → Bytes
  | .notJson => utf8 "config is not valid JSON: malformed text"
  | .notObject => utf8 "config root must be an object"
  | .bad key => utf8 "config key '" ++ key.name ++ utf8 "': " ++ key.requirement
  | .secretNotText => utf8 "config key '" ++ Key.cursorSecret.name ++ utf8 "': must be a hex string"

def Refusal.fault (r : Refusal) : Fault := .validation r.message

/-- The value of a key, or the default if the key is absent. -/
def setting {α : Type} (doc : Json) (key : Key) (default : α) (read : Json → Option α) :
    Except Refusal α :=
  match doc.get? key.name with
  | none => .ok default
  | some v =>
    match read v with
    | some a => .ok a
    | none => .error (.bad key)

/-- A text that is not empty. -/
def readText (v : Json) : Option Bytes := v.str?.filter fun s => !s.isEmpty

/-- A whole number from `lo` to `hi`, as a signed word. -/
def readInt (lo hi : Int64) (v : Json) : Option Int64 :=
  v.int64?.filter fun n => lo ≤ n && n ≤ hi

/-- The shortest secret, in bytes. -/
def secretSize : Nat := 16

/-- A hexadecimal text of a secret that is long enough. -/
def readSecret (v : Json) : Option Bytes :=
  v.str?.filter fun s =>
    match Hex.decode s with
    | .ok secret => secretSize ≤ secret.length
    | .error _ => false

/-- A text that is not empty, or null for none. -/
def readPath (v : Json) : Option (Option Bytes) :=
  if v.isNull then some none else (readText v).map some

def ofJson (doc : Json) : Except Refusal Settings := do
  if !doc.isObject then throw .notObject
  let initial : Settings := {}
  let listenAddress ← setting doc .listenAddress initial.listenAddress readText
  let listenPort ← setting doc .listenPort initial.listenPort
    fun v => (readInt 0 65535 v).map fun n => n.toUInt64.toUInt16
  let livenessMs ← setting doc .livenessMs initial.livenessMs (readInt 1 Int64.maxValue)
  let maxCommandsPerReply ← setting doc .maxCommandsPerReply initial.maxCommandsPerReply
    fun v => (readInt 1 Int64.maxValue v).map (·.toUInt64)
  let shardCount ← setting doc .shardCount initial.shardCount
    fun v => (readInt 1 4096 v).map (·.toNatClampNeg)
  if (doc.get? Key.cursorSecret.name).any fun v => v.str?.isNone then throw .secretNotText
  let cursorSecret ← setting doc .cursorSecret initial.cursorSecret readSecret
  let journalPath ← setting doc .journalPath initial.journalPath readPath
  let logLevel ← setting doc .logLevel initial.logLevel fun v => v.str?.bind Severity.ofName?
  return { listenAddress, listenPort, livenessMs, maxCommandsPerReply, shardCount, cursorSecret,
           journalPath, logLevel }

/-- Why settings cannot be had. -/
inductive Failure where
  | unopened (path : Bytes)
  | refused (cause : Refusal)
  /-- The text holds a number past the largest double, whatever its key. -/
  | overflow
  deriving DecidableEq, Repr

/-- The fault that a failure is reported as; none for an overflow, which ends a run unreported. -/
def Failure.fault? : Failure → Option Fault
  | .unopened path => some (.storage (utf8 "cannot open config file " ++ path))
  | .refused cause => some cause.fault
  | .overflow => none

/-- The settings that a JSON text gives. -/
def parse (text : Bytes) : Except Failure Settings :=
  match Json.parse text with
  | .error .malformed => .error (.refused .notJson)
  | .error .tooLarge => .error .overflow
  | .ok doc => (ofJson doc).mapError .refused

/-- The settings in the file at a path, given what the file holds if it can be opened. -/
def load (path : Bytes) (content : Option Bytes) : Except Failure Settings :=
  match content with
  | none => .error (.unopened path)
  | some text => parse text

end Settings

end FleetControl
