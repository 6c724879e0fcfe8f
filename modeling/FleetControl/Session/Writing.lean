import FleetControl.Bytes.Lines

/-!
# Lines into a stream

A transport takes some of the bytes that it is given, is interrupted, or fails.  Each frame is
written as a line, with what was not taken given again until all of it is taken or the transport
fails, and no frame is written after one that failed.
-/

namespace FleetControl

/-- What a transport answers that is given bytes. -/
inductive Sent where
  /-- It takes as many bytes from the front. -/
  | taken (count : Nat)
  | interrupted
  | failed
  deriving DecidableEq, Repr

/-- What became of bytes that were to be written. -/
structure Written where
  /-- The bytes that the transport took. -/
  bytes : Bytes
  isWhole : Bool
  /-- The answers that the transport gives to what is written next. -/
  answers : List Sent
  deriving DecidableEq, Repr

namespace LineWriter

/-- Writes bytes to a transport with the given answers. -/
def send : Bytes → List Sent → Written
  | [], answers => ⟨[], true, answers⟩
  | _, [] => ⟨[], false, []⟩
  | _, .failed :: answers => ⟨[], false, answers⟩
  | data, .interrupted :: answers => send data answers
  | data, .taken count :: answers =>
    let written := send (data.drop count) answers
    { written with bytes := data.take count ++ written.bytes }

def writeFrame (frame : Bytes) (answers : List Sent) : Written :=
  send (frame ++ [Lines.lineFeed]) answers

/-- Writes frames one after the other: the stream, and how many of the frames are in it as a
whole. -/
def writeFrames : List Bytes → List Sent → Bytes × Nat
  | [], _ => ([], 0)
  | frame :: frames, answers =>
    let line := writeFrame frame answers
    if line.isWhole then
      let (stream, count) := writeFrames frames line.answers
      (line.bytes ++ stream, count + 1)
    else (line.bytes, 0)

end LineWriter

end FleetControl
