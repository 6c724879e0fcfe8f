import FleetControl.Bytes.Lines

/-!
# Lines out of a stream

Peers send frames as lines, in reads that are cut anywhere.  A line reader keeps the bytes of the
line that is not complete yet and remembers up to where they hold no line feed, so each byte is
searched once.  A line that grows past the largest frame is answered once and then passed over up to
its end, so the reader never keeps much more than one frame.
-/

namespace FleetControl

/-- What a reader finds in a stream: a frame, or a line that is too long for one. -/
inductive Finding where
  | frame (line : Bytes)
  | oversize
  deriving DecidableEq, Repr

structure LineReader where
  buffer : Array UInt8 := #[]
  /-- The bytes of the buffer before this place hold no line feed. -/
  scanFrom : Nat := 0
  /-- Whether the line that is being read was found to be too long. -/
  discarding : Bool := false
  deriving DecidableEq, Repr

namespace LineReader

/-- The largest frame, in bytes. -/
def frameSize : Nat := 1048576

/-- The most bytes that one read takes from a stream. -/
def readSize : Nat := 4096

/-- The place of the first line feed from a place on. -/
def lineFeedFrom (buffer : Array UInt8) (i : Nat) : Option (Fin buffer.size) :=
  if h : i < buffer.size then
    if buffer[i] = Lines.lineFeed then some ⟨i, h⟩ else lineFeedFrom buffer (i + 1)
  else none
termination_by buffer.size - i

/-- A line without one carriage return at its end. -/
def dropReturn (line : Bytes) : Bytes := if line.getLast? = some 0x0d then line.dropLast else line

/-- What a complete line is: nothing if it is blank. -/
def classify (line : Bytes) : Option Finding :=
  let frame := dropReturn line
  if frame.isEmpty then none
  else if frameSize < frame.length then some .oversize
  else some (.frame frame)

/-- Takes the complete lines out of the buffer, after findings that stand in reverse. -/
def drain (r : LineReader) (found : List Finding) : List Finding × LineReader :=
  match lineFeedFrom r.buffer r.scanFrom with
  | none => (found, { r with scanFrom := r.buffer.size })
  | some i =>
    let line := (r.buffer.extract 0 i).toList
    let rest : LineReader := { buffer := r.buffer.extract (i + 1) r.buffer.size }
    -- The end of a line that was found to be too long is no line of its own.
    if r.discarding then drain rest found
    else drain rest ((classify line).toList ++ found)
termination_by r.buffer.size
decreasing_by all_goals simp only [Array.size_extract]; omega

/-- Drops a line that is too long before it is complete. -/
def shed (found : List Finding) (r : LineReader) : List Finding × LineReader :=
  if frameSize < r.buffer.size then
    (if r.discarding then found else .oversize :: found, { discarding := true })
  else (found, r)

/-- What one read completes, and the reader after it. -/
def feed (r : LineReader) (bytes : Bytes) : List Finding × LineReader :=
  let (found, r) := drain { r with buffer := r.buffer ++ bytes.toArray } []
  let (found, r) := shed found r
  (found.reverse, r)

/-- What a stream holds that comes in the given reads and then ends. -/
def run (reads : List Bytes) : List Finding :=
  let step (state : List (List Finding) × LineReader) (bytes : Bytes) :=
    let (found, r) := state.2.feed bytes
    (found :: state.1, r)
  (reads.foldl step ([], {})).1.reverse.flatten

/-- The first read of a stream that comes all at once: as much as fits, but a carriage return at the
end is left for the next read. -/
def firstRead (bytes : Bytes) : Bytes :=
  let read := bytes.take readSize
  if 1 < read.length ∧ read.getLast? = some 0x0d then read.dropLast else read

theorem firstRead_ne_nil {bytes : Bytes} (h : bytes ≠ []) : firstRead bytes ≠ [] := by
  have hread : 0 < (bytes.take readSize).length := by
    rw [List.length_take]
    exact Nat.lt_min.mpr ⟨by decide, List.length_pos_iff.mpr h⟩
  rw [firstRead, ← List.length_pos_iff]
  split
  · rename_i hlast
    rw [List.length_dropLast]
    omega
  · exact hread

/-- Cuts a stream into reads in one of the ways in which it can come.  A transport may cut it
anywhere else, so it is for every list of reads that a reader is shown to be right. -/
def reads (bytes : Bytes) : List Bytes :=
  if _h : bytes = [] then []
  else firstRead bytes :: reads (bytes.drop (firstRead bytes).length)
termination_by bytes.length
decreasing_by
  have hread : 0 < (firstRead bytes).length := List.length_pos_iff.mpr (firstRead_ne_nil _h)
  have hbytes : 0 < bytes.length := List.length_pos_iff.mpr _h
  rw [List.length_drop]
  omega

end LineReader

end FleetControl
