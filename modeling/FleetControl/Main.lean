import FleetControl.Startup
import FleetControl.Uuid
import Std.Time.DateTime.Timestamp

/-!
# The program

Reads the settings that the command line names, restores the command journal, and answers the frames
of one agent connection on standard input with lines on standard output.  Messages go to standard
error.
-/

namespace FleetControl.Main

def bytesOf (s : String) : Bytes := s.toUTF8.toList

def textOf (b : Bytes) : String := (String.fromUTF8? b.toByteArray).getD ""

/-- The wall time. -/
def wallTime : IO Instant := do
  let time ← Std.Time.Timestamp.now
  return Int64.ofInt time.toNanosecondsSinceUnixEpoch.val

/-- The folder that a path is in. -/
def folderOf (path : String) : String :=
  match (path.splitOn "/").dropLast with
  | [] => "."
  | names => String.intercalate "/" names ++ "/"

/-- What stands at a path. -/
def entryAt (path : String) : IO Entry := do
  try
    return .file (← IO.FS.readBinFile path).toList
  catch
    | .noFileOrDirectory .. =>
      try
        let folder ← IO.FS.realPath (folderOf path)
        return if ← folder.isDir then .nothing else .noParent
      catch _ => return .noParent
    | _ => return .directory

/-- The surroundings of a run: the settings file, and the journal that it names. -/
def observe (args : List String) : IO Startup.Host := do
  let secret := (← IO.getRandomBytes 32).toList
  let ids : IdSource := { idAt := Uuid.fromSecret (← IO.getRandomBytes 32).toList }
  let config ← match args with
    | [path] => entryAt path
    | _ => pure .nothing
  let host : Startup.Host := { entryAt := fun _ => config, secret, ids }
  match Startup.settings host (args.map bytesOf) with
  | .ok { journalPath := some path, .. } =>
    let journal ← entryAt (textOf path)
    return { host with entryAt := fun p => if p == path then journal else config }
  | _ => return host

/-- Makes the file of a journal what the journal holds. -/
def keep (journal : Journal) (known : Entry) : IO Unit := do
  match journal.content? with
  | some content =>
    if journal.entry != known then
      IO.FS.writeBinFile (textOf journal.path) content.toByteArray
  | none => pure ()

def note (n : Notice) : IO Unit :=
  IO.eprintln ("[" ++ textOf n.severity.name ++ "] " ++ textOf n.text)

/-- Writes answers, each on a line of its own. -/
def send (replies : List Reply) : IO Unit := do
  let out ← IO.getStdout
  for reply in replies do
    out.write (reply.encode ++ [Lines.lineFeed]).toByteArray
  out.flush

/-- Answers what comes on standard input until it ends. -/
partial def converse (conn : Bytes) (clock : Clock) (reader : LineReader) (f : Fleet) :
    IO Unit := do
  let bytes ← (← IO.getStdin).read (USize.ofNat LineReader.readSize)
  if bytes.isEmpty then return
  let (now, clock) := clock.read (← wallTime)
  let (found, reader) := reader.feed bytes.toList
  let (replies, f) := f.answerAll conn now found
  send replies
  converse conn clock reader f

/-- The whole program: its exit code. -/
def run (args : List String) : IO UInt32 := do
  let host ← observe args
  let outcome := Startup.run host (args.map bytesOf)
  if let some journal := outcome.journal then
    keep journal (host.entryAt journal.path)
  outcome.notices.forM note
  match outcome.result with
  | .error cause =>
    IO.eprint (textOf cause.errorText)
    return cause.exitCode
  | .ok (_, fleet) =>
    let conn := utf8 "stdin"
    let (now, clock) := Clock.read {} (← wallTime)
    if let .ok fleet := fleet.connect conn now then
      converse conn clock {} fleet
    return 0

end FleetControl.Main

def main (args : List String) : IO UInt32 := FleetControl.Main.run args
