import FleetControl.Address
import FleetControl.Session.Handler
import FleetControl.Session.Lines

/-!
# Serving connections

Every frame that a peer sends is answered with exactly one line.  A server holds the connections
that it was asked to serve until they are reaped, also those that have finished or were refused.
-/

namespace FleetControl

namespace Fleet

/-- Answers one finding; a line that is too long is rejected unread. -/
def answer (f : Fleet) (conn : Bytes) (now : Instant) : Finding → Reply × Fleet
  | .frame frame => f.receiveFrame conn frame now
  | .oversize => (.rejection [], f)

/-- Answers findings one after the other. -/
def answerAll (f : Fleet) (conn : Bytes) (now : Instant) (findings : List Finding) :
    List Reply × Fleet :=
  let step (state : List Reply × Fleet) (finding : Finding) :=
    let (reply, f) := state.2.answer conn now finding
    (reply :: state.1, f)
  let (replies, f) := findings.foldl step ([], f)
  (replies.reverse, f)

/-- Serves a connection that is open to its end: the lines written, and what is known afterwards. -/
def converse (f : Fleet) (conn : Bytes) (reads : List Bytes) (now : Instant) :
    List Bytes × Fleet :=
  let (replies, f) := f.answerAll conn now (LineReader.run reads)
  (replies.map Reply.encode, f.disconnect conn)

/-- Serves a connection from its opening on; one whose id is refused is not served. -/
def serve (f : Fleet) (conn : Bytes) (reads : List Bytes) (now : Instant) : List Bytes × Fleet :=
  match f.connect conn now with
  | .ok f => f.converse conn reads now
  | .error _ => ([], f)

end Fleet

/-- A connection that a server serves or has served. -/
structure Client where
  conn : Bytes
  isFinished : Bool
  deriving DecidableEq, Repr

/-- Why a server does not start. -/
inductive Server.StartRefusal where
  | running
  | badAddress (address : Bytes)
  deriving DecidableEq, Repr

structure Server where
  isRunning : Bool := false
  clients : List Client := []
  deriving DecidableEq, Repr

namespace Server

def StartRefusal.message : StartRefusal → Bytes
  | .running => utf8 "session server already running"
  | .badAddress address =>
    Bytes.untilZero (utf8 "invalid listen address " ++ address ++ utf8 ": Invalid argument")

/-- A server starts once, and only on an address. -/
def start (s : Server) (address : Bytes) : Except StartRefusal Server :=
  if s.isRunning then .error .running
  else if Address.isDottedQuad (Bytes.untilZero address) then .ok { s with isRunning := true }
  else .error (.badAddress address)

/-- The connections not finished. -/
def active (s : Server) : Nat := s.clients.countP fun c => !c.isFinished

/-- The connections not reaped. -/
def held (s : Server) : Nat := s.clients.length

/-- A peer connects: whether its id is accepted, and what is known afterwards. -/
def accept (s : Server) (f : Fleet) (conn : Bytes) (now : Instant) : Bool × Server × Fleet :=
  let hold (isFinished : Bool) : Server := { s with clients := s.clients ++ [⟨conn, isFinished⟩] }
  match f.connect conn now with
  | .ok f => (true, hold false, f)
  | .error _ => (false, hold true, f)

/-- Marks the open connection with an id as finished. -/
def finish (s : Server) (conn : Bytes) : Server :=
  { s with clients := s.clients.map fun c =>
      if c.conn == conn then { c with isFinished := true } else c }

/-- Whether a connection is open. -/
def isOpen (s : Server) (conn : Bytes) : Bool :=
  s.clients.any fun c => c.conn == conn && !c.isFinished

/-- A peer that is connected sends bytes and ends. -/
def receive (s : Server) (f : Fleet) (conn : Bytes) (reads : List Bytes) (now : Instant) :
    List Bytes × Server × Fleet :=
  if s.isOpen conn then
    let (lines, f) := f.converse conn reads now
    (lines, s.finish conn, f)
  else ([], s, f)

/-- Drops the connections that have finished. -/
def reap (s : Server) : Server := { s with clients := s.clients.filter fun c => !c.isFinished }

/-- Stops a server that runs: every open connection is closed and none is held. -/
def stop (s : Server) (f : Fleet) : Server × Fleet :=
  if s.isRunning then
    let stillOpen := s.clients.filter fun c => !c.isFinished
    ({}, stillOpen.foldl (fun f c => f.disconnect c.conn) f)
  else (s, f)

end Server

end FleetControl
