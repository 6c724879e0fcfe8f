import FleetControl.Command.Journal
import FleetControl.Page.Listing

/-!
# The command log

The log keeps every command that was saved, in order of creation, by id, and by the instance that it
is for.  Creation times strictly increase in the order of saving, whatever the clock shows, so a
listing only ever grows at its end.  With a journal, a command is in the journal before it is in the
log.
-/

namespace FleetControl

/-- A source of ids, by how many were drawn from it. -/
structure IdSource where
  idAt : Nat → Bytes
  drawn : Nat := 0

def IdSource.draw (s : IdSource) : Bytes × IdSource :=
  (s.idAt (s.drawn + 1), { s with drawn := s.drawn + 1 })

/-- Draws up to `tries` ids for one that is free. -/
def IdSource.allocate (isTaken : Bytes → Bool) : Nat → IdSource → Option Bytes × IdSource
  | 0, s => (none, s)
  | tries + 1, s =>
    let (id, s) := s.draw
    if id.isEmpty || isTaken id then s.allocate isTaken tries else (some id, s)

structure CommandLog where
  cursor : Cursor
  /-- By order key. -/
  ordered : Table Command := ∅
  byId : Table Command := ∅
  /-- By target instance, then by order key. -/
  byInstance : Table (Table Command) := ∅
  latest : Option Instant := none
  journal : Option Journal := none

namespace CommandLog

/-- How many ids a save tries. -/
def idTries : Nat := 4

/-- Why a command is not saved, found or restored. -/
inductive Refusal where
  | badCommand (cause : Command.Refusal)
  | noFreeId
  | notJournaled (path : Bytes) (cause : Journal.Refusal)
  | notFound (id : Bytes)
  | duplicate (id : Bytes)
  | badPage (cause : PageRequest.Refusal)
  deriving DecidableEq, Repr

def Refusal.fault : Refusal → Fault
  | .badCommand cause => cause.fault
  | .noFreeId => .storage (utf8 "could not allocate a unique command id")
  | .notJournaled path cause => cause.fault path
  | .notFound id => .notFound (utf8 "command " ++ id ++ utf8 " not found")
  | .duplicate id => .storage (utf8 "duplicate command " ++ id ++ utf8 " in journal")
  | .badPage cause => cause.fault

/-- An empty log without a journal.  The number of shards shows nowhere in it, but there has to be
one at least. -/
def setup (cursor : Cursor) (shards : Nat) : Except SetupError CommandLog :=
  if 0 < shards then .ok { cursor } else .error .noShards

/-! ### Indexing -/

/-- Puts a command into the three indexes.  A key that is there already keeps its command. -/
def index (log : CommandLog) (c : Command) : CommandLog :=
  { log with
    ordered := log.ordered.insertNew c.orderKey c
    byId := log.byId.insertNew c.id c
    byInstance := log.byInstance.alter c.target fun commands =>
      some ((commands.getD ∅).insertNew c.orderKey c) }

/-- The later of the latest creation time and another. -/
def laterThan (latest : Option Instant) (time : Instant) : Option Instant :=
  match latest with
  | none => some time
  | some t => if t < time then some time else some t

/-! ### Saving -/

/-- The creation time of the next command: the clock's, or one past the latest if the clock is not
past it. -/
def nextTime (log : CommandLog) (now : Instant) : Instant :=
  match log.latest with
  | none => now
  | some t => if now ≤ t then t + 1 else now

/-- A save: its answer, the log and the ids afterwards. -/
structure Saved where
  result : Except Refusal Command
  log : CommandLog
  ids : IdSource

/-- What a client asks to have saved. -/
structure Request where
  kind : CommandKind
  target : Bytes
  data : Json

def Request.check (r : Request) : Except Command.Refusal Unit :=
  if r.target.isEmpty then .error .noTarget else Command.checkData r.data

/-- The command of a request; null data is an empty object. -/
def Request.command (r : Request) (id : Bytes) (createdAt : Instant) : Command :=
  ⟨id, r.kind, r.target, if r.data.isNull then .obj [] else r.data, createdAt⟩

/-- Writes a command to the journal, if there is one. -/
def record (log : CommandLog) (room : Option Nat) (c : Command) :
    Except Refusal Unit × CommandLog :=
  match log.journal with
  | none => (.ok (), log)
  | some journal =>
    let (result, journal') := journal.append room c
    (result.mapError (.notJournaled journal.path), { log with journal := some journal' })

/-- Saves a command.  `room` is what the journal's file can still grow by. -/
def save (log : CommandLog) (ids : IdSource) (now : Instant) (room : Option Nat) (r : Request) :
    Saved :=
  match r.check with
  | .error cause => ⟨.error (.badCommand cause), log, ids⟩
  | .ok () =>
    -- Ids that were tried stay drawn even if the save fails.
    let (id, ids) := ids.allocate log.byId.contains idTries
    match id with
    | none => ⟨.error .noFreeId, log, ids⟩
    | some id =>
      let c := r.command id (log.nextTime now)
      match log.record room c with
      | (.error cause, log) => ⟨.error cause, log, ids⟩
      | (.ok (), log) => ⟨.ok c, { log.index c with latest := some c.createdAt }, ids⟩

/-! ### Reading -/

def find (log : CommandLog) (id : Bytes) : Except Refusal Command :=
  match log.byId.get? id with
  | some c => .ok c
  | none => .error (.notFound id)

/-- The commands for an instance, in order. -/
def ofInstance (log : CommandLog) (instanceId : Bytes) : List Command :=
  ((log.byInstance.get? instanceId).getD ∅).values

/-- The first `limit` commands for an instance past an order key. -/
def ofInstanceAfter (log : CommandLog) (instanceId after : Bytes) (limit : Nat) : List Command :=
  let commands := (log.byInstance.get? instanceId).getD ∅
  ((commands.filter fun key _ => Bytes.before after key).values).take limit

def list (log : CommandLog) (request : PageRequest) : Except Refusal (Page Command) :=
  match paginate (·.1) log.ordered.toList log.cursor request with
  | .ok page => .ok (page.map (·.2))
  | .error cause => .error (.badPage cause)

def size (log : CommandLog) : Nat := log.ordered.size

/-! ### Restoring -/

/-- Adds a command that a journal holds. -/
def restoreOne (log : CommandLog) (c : Command) : Except Refusal CommandLog :=
  if log.ordered.contains c.orderKey then .error (.duplicate c.id)
  else .ok { log.index c with latest := laterThan log.latest c.createdAt }

/-- What restoring a log comes to.  `journal` is the journal afterwards. -/
structure Restored where
  result : Except Refusal CommandLog
  journal : Journal
  notices : List Notice

/-- A log with the commands of a journal, which then takes the commands that are saved. -/
def restore (cursor : Cursor) (journal : Journal) : Restored :=
  match journal.replay with
  | .error cause => ⟨.error (.notJournaled journal.path cause), journal, []⟩
  | .ok replay =>
    match replay.commands.foldlM restoreOne { cursor } with
    | .error cause => ⟨.error cause, journal, replay.notices⟩
    | .ok log =>
      let resumed := journal.resume
      let notices := replay.notices ++ resumed.notices
      match resumed.result with
      | .error cause => ⟨.error (.notJournaled journal.path cause), resumed.journal, notices⟩
      | .ok () => ⟨.ok { log with journal := some resumed.journal }, resumed.journal, notices⟩

end CommandLog

end FleetControl
