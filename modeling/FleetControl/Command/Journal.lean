import FleetControl.Bytes.Lines
import FleetControl.Command.Record
import FleetControl.Severity

/-!
# The command journal

A file with one command a line, to which lines are only added.  A line is complete or absent: an
append that fails leaves the file as it was, and a torn last line, which a crash can leave, is
passed over by `replay` and cut off by `resume`.  `replay` and `resume` cut a file at the same
place, the last line feed.

Cutting a file back after such an append is taken to succeed.  If the system refuses that as well,
the journal is marked as failed for good, and every later append is refused as one to a journal that
is unusable after a failed write; this mark and this refusal are left out.
-/

namespace FleetControl

/-- What stands at a path. -/
inductive Entry where
  | nothing
  | noParent
  | directory
  | file (content : Bytes)
  deriving DecidableEq, Repr

/-- What reading a file yields, if it can be opened; a directory opens and holds nothing. -/
def Entry.content? : Entry → Option Bytes
  | .file content => some content
  | .directory => some []
  | .nothing | .noParent => none

/-- A journal's hold on its file.  `attached` tells whether the file held is still the one at the
path, and `stuck` whether the next write fails because the file was opened twice. -/
inductive Handle where
  | closed
  | held (attached stuck : Bool)
  deriving DecidableEq, Repr

/-- A journal: its path, what stands there, and its hold on it. -/
structure Journal where
  path : Bytes
  entry : Entry
  handle : Handle := .closed
  deriving DecidableEq, Repr

namespace Journal

/-- What keeps the system from giving a file's size. -/
inductive StatCause where
  | missing
  | isDirectory
  deriving DecidableEq, Repr

def StatCause.message : StatCause → Bytes
  | .missing => utf8 "No such file or directory"
  | .isDirectory => utf8 "Is a directory"

/-- Why the journal refuses. -/
inductive Refusal where
  | corrupt (line : Nat)
  | invalid (line : Nat) (cause : Command.Refusal)
  | unreadable
  | noSize (cause : StatCause)
  | notOpened
  | notOpen
  | notText
  | notWritten
  deriving DecidableEq, Repr

def Refusal.message (path : Bytes) : Refusal → Bytes
  | .corrupt line => utf8 "corrupt command journal " ++ path ++ utf8 " at line " ++
      Decimal.ofNat line
  | .invalid line cause => utf8 "invalid command in journal " ++ path ++ utf8 " at line " ++
      Decimal.ofNat line ++ utf8 ": " ++ cause.message
  | .unreadable => utf8 "failed reading command journal " ++ path
  | .noSize cause => utf8 "cannot stat command journal " ++ path ++ utf8 ": " ++ cause.message
  | .notOpened => utf8 "cannot open command journal " ++ path ++ utf8 " for append"
  | .notOpen => utf8 "command journal " ++ path ++ utf8 " is not open"
  | .notText => utf8 "cannot serialize command: ill-formed text"
  | .notWritten => utf8 "failed to append to command journal " ++ path

def Refusal.fault (path : Bytes) (r : Refusal) : Fault := .storage (r.message path)

/-! ### Reading back -/

/-- What a journal's lines say. -/
structure Replay where
  commands : List Command := []
  notices : List Notice := []

/-- The command on a numbered line, if the line is not blank. -/
def readLine (line : Bytes) (number : Nat) : Except Refusal (Option Command) :=
  if line.isEmpty then .ok none
  else match Json.parse? line with
    | none => .error (.corrupt number)
    | some j =>
      match Command.ofJson j with
      | .ok c => .ok (some c)
      | .error cause => .error (.invalid number cause)

/-- The commands on the complete lines of a file. -/
def readLines (lines : List Bytes) : Except Refusal (List Command) := do
  let commands ← (lines.zipIdx 1).mapM fun (line, number) => readLine line number
  return commands.filterMap id

/-- Every command on a complete line of the file. -/
def replay (j : Journal) : Except Refusal Replay :=
  match j.entry with
  | .nothing | .noParent => .ok {}
  | .directory => .error .unreadable
  | .file content => do
    let cut := Lines.cut content
    let commands ← readLines cut.complete
    let torn : List Notice := if cut.torn.isEmpty then [] else
      [⟨.warn, utf8 "ignoring torn line " ++ Decimal.ofNat (cut.complete.length + 1) ++
        utf8 " at the end of command journal " ++ j.path⟩]
    return ⟨commands, torn ++ [⟨.info, utf8 "replayed " ++ Decimal.ofNat commands.length ++
      utf8 " commands from " ++ j.path⟩]⟩

/-! ### Adding lines -/

/-- What opening a journal for appending comes to. -/
structure Resumed where
  result : Except Refusal Unit
  journal : Journal
  notices : List Notice := []

/-- Takes hold of the file, which then exists. -/
def hold (j : Journal) : Resumed :=
  match j.handle, j.entry with
  -- A second opening fails and leaves a handle that cannot write.
  | .held attached _, _ =>
    { result := .error .notOpened, journal := { j with handle := .held attached true } }
  | .closed, .noParent => { result := .error .notOpened, journal := j }
  | .closed, .nothing =>
    { result := .ok (), journal := { j with entry := .file [], handle := .held true false } }
  | .closed, _ => { result := .ok (), journal := { j with handle := .held true false } }

/-- Cuts off a torn last line and opens the file for appending. -/
def resume (j : Journal) : Resumed :=
  match j.entry with
  | .directory => { result := .error (.noSize .isDirectory), journal := j }
  | .file content =>
    let whole := Lines.whole content
    let cut := content.length - whole.length
    let resumed := hold { j with entry := .file whole }
    if cut = 0 then resumed
    else { resumed with notices :=
      [⟨.warn, utf8 "cutting " ++ Decimal.ofNat cut ++
        utf8 " bytes of torn data from command journal " ++ j.path⟩] }
  | .nothing | .noParent => hold j

/-- The line of a command, with its line feed. -/
def line? (c : Command) : Option Bytes := c.toJson.write?.map (· ++ [Lines.lineFeed])

/-- What a file takes of bytes that can still grow by `room`; none is room without limit. -/
def taken (room : Option Nat) (bytes : Bytes) : Bytes :=
  match room with
  | none => bytes
  | some n => bytes.take n

/-- Cuts the file back to a size, and with it whatever a write has left behind that size, and opens
it anew; both succeed.  Opening follows the path, whatever file was held before. -/
def rollBack (j : Journal) (size : Nat) : Journal :=
  match j.entry with
  | .file content => { j with entry := .file (content.take size), handle := .held true false }
  | .nothing | .noParent | .directory => j

/-- Adds the line of a command.  When not all of it gets out, the file is rolled back. -/
def append (j : Journal) (room : Option Nat) (c : Command) : Except Refusal Unit × Journal :=
  match j.handle with
  | .closed => (.error .notOpen, j)
  | .held attached stuck =>
    match line? c with
    | none => (.error .notText, j)
    | some line =>
      match j.entry with
      | .nothing | .noParent => (.error (.noSize .missing), j)
      | .directory => (.error (.noSize .isDirectory), j)
      | .file content =>
        let out := if stuck then [] else taken room line
        -- The file held may have lost its name, and then nothing at the path changes.
        let written := { j with entry := .file (if attached then content ++ out else content) }
        if out.length = line.length then (.ok (), written)
        else (.error .notWritten, written.rollBack content.length)

/-! ### Other programs -/

/-- The hold on a file that has lost its name. -/
def Handle.detached : Handle → Handle
  | .closed => .closed
  | .held _ stuck => .held false stuck

/-- What reading the path yields, if it can be opened: a directory opens and holds nothing. -/
def content? (j : Journal) : Option Bytes := j.entry.content?

/-- Another program replaces the content of the file, or makes the file. -/
def overwrite (j : Journal) (content : Bytes) : Journal :=
  match j.entry with
  | .file _ | .nothing => { j with entry := .file content }
  | _ => j

/-- Another program adds to the file, or makes it. -/
def extend (j : Journal) (content : Bytes) : Journal :=
  j.overwrite ((j.content?).getD [] ++ content)

/-- Another program removes what stands at the path.  A file that is held lives on without a
name. -/
def unlink (j : Journal) : Journal :=
  match j.entry with
  | .file _ | .directory => { j with entry := .nothing, handle := Handle.detached j.handle }
  | .nothing | .noParent => j

/-- The journal is let go of. -/
def release (j : Journal) : Journal := { j with handle := .closed }

end Journal

end FleetControl
