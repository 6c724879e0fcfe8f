import FleetControl.Session.Server
import FleetControl.Settings

/-!
# Starting up

From the arguments of the command line to a control plane that is ready to listen, or to the reason
why there is none.  Nothing is listened on before the settings, the journal and the address have
been found good, in this order.
-/

namespace FleetControl

namespace Startup

/-- What the surroundings give: what stands at a path, a random secret, and ids. -/
structure Host where
  entryAt : Bytes → Entry
  secret : Bytes
  ids : IdSource

/-- Why the program ends before it listens. -/
inductive Refusal where
  | usage
  | badSettings (path : Bytes) (cause : Settings.Failure)
  | badSetup (cause : SetupError)
  | badJournal (fault : Fault)
  | badAddress (cause : Server.StartRefusal)
  deriving DecidableEq, Repr

def Refusal.exitCode : Refusal → UInt32
  | .usage => 2
  -- Nothing handles an overflow, so the run is aborted.
  | .badSettings _ .overflow => 134
  | _ => 1

/-- What the program writes about itself before there is a log. -/
def Refusal.errorText : Refusal → Bytes
  | .usage => utf8 "usage: agentfleetd [config.json]\n"
  | .badSettings path cause =>
    match cause.fault? with
    | some fault => utf8 "failed to load " ++ path ++ utf8 ": " ++ fault.message ++ utf8 "\n"
    | none => utf8 "aborted: number overflow in " ++ path ++ utf8 "\n"
  | _ => []

/-- What the log says; a reason ends at its first zero byte. -/
def Refusal.notices : Refusal → List Notice
  | .usage | .badSettings .. => []
  | .badSetup cause => failed cause.message
  | .badJournal fault => failed (utf8 "command journal: " ++ fault.message)
  | .badAddress cause => failed cause.message
where
  failed (reason : Bytes) : List Notice :=
    [⟨.critical, utf8 "agentfleetd failed: " ++ Bytes.untilZero reason⟩]

/-- How a start ends.  `notices` are the messages that the log shows, and `journal` is the journal
afterwards, if one was to be used. -/
structure Outcome where
  result : Except Refusal (Server × Fleet)
  notices : List Notice := []
  journal : Option Journal := none

/-- The settings that the arguments name. -/
def settings (host : Host) : List Bytes → Except Refusal Settings
  | [] => .ok {}
  | [path] => (Settings.load path (host.entryAt path).content?).mapError (.badSettings path)
  | _ => .error .usage

/-- The secret behind continue tokens, and what the log says about it. -/
def secret (host : Host) (s : Settings) : Except SetupError (Bytes × List Notice) :=
  if s.cursorSecret.isEmpty then .ok (host.secret, [⟨.warn, utf8
    "no cursorSecret configured, continuation tokens will not survive a restart"⟩])
  else match Hex.decode s.cursorSecret with
    | .ok secret => .ok (secret, [])
    | .error cause => .error (.badSecret cause)

/-- The codec of continue tokens, and what the log says about its secret. -/
def cursor (host : Host) (s : Settings) : Except SetupError (Cursor × List Notice) := do
  let (secret, notices) ← secret host s
  return (← Cursor.ofSecret secret, notices)

/-- What the settings ask of a control plane. -/
def plan (s : Settings) : Fleet.Plan :=
  { livenessMs := s.livenessMs, shards := s.shardCount, perReply := s.maxCommandsPerReply }

/-- A control plane over a log and a server for it, if there is an address to listen on. -/
def assemble (host : Host) (s : Settings) (cursor : Cursor) (log : CommandLog) :
    Except Refusal (Server × Fleet) := do
  let fleet ← (Fleet.setup cursor (plan s) { log, ids := host.ids }).mapError .badSetup
  let server ← (Server.start {} s.listenAddress).mapError .badAddress
  return (server, fleet)

/-- Starts with given settings. -/
def begin (host : Host) (s : Settings) : Outcome :=
  match cursor host s with
  | .error cause => { result := .error (.badSetup cause) }
  | .ok (cursor, notices) =>
    match CommandLog.setup cursor s.shardCount, s.journalPath with
    | .error cause, _ => { result := .error (.badSetup cause), notices }
    | .ok log, none => { result := assemble host s cursor log, notices }
    | .ok _, some path =>
      let restored := CommandLog.restore cursor { path, entry := host.entryAt path }
      let notices := notices ++ restored.notices
      let journal := some restored.journal
      match restored.result with
      | .error cause => { result := .error (.badJournal cause.fault), notices, journal }
      | .ok log => { result := assemble host s cursor log, notices, journal }

/-- The messages of a start that a log with a threshold shows, those about its end included. -/
def Outcome.shown (o : Outcome) (threshold : Severity) : Outcome :=
  let ending := match o.result with
    | .ok _ => []
    | .error cause => cause.notices
  { o with notices := (o.notices ++ ending).filter (Notice.isShown threshold) }

/-- Starts with the arguments of the command line. -/
def run (host : Host) (args : List Bytes) : Outcome :=
  match settings host args with
  | .error cause => { result := .error cause }
  | .ok s => (begin host s).shown s.logLevel

end Startup

end FleetControl
