import FleetControl.Proofs.Json.Reader
import FleetControl.Proofs.Session.Lines
import FleetControl.Proofs.Session.Run
import FleetControl.Session.Server

/-!
# Serving — what a peer is answered, whatever the reads

A connection is answered for what its reader finds, so two ways of cutting a stream into reads come
to the same lines and the same control plane if neither parts the ending of a largest line
(`Fleet.serve_eq_of_flatten_eq`).  If one does, they differ: a message that is filled up to the
largest frame is answered when its carriage return and line feed come in one read, and is rejected
when they come in two.
-/

namespace FleetControl

namespace AgentMessage

/-- The frame of a message, filled up to a size with spaces. -/
def encodeFilled (m : AgentMessage) (size : ℕ) : Bytes :=
  m.encode ++ List.replicate (size - m.encode.length) 0x20

variable {m : AgentMessage} {size : ℕ}

theorem length_encodeFilled (h : m.encode.length ≤ size) : (m.encodeFilled size).length = size := by
  rw [encodeFilled, List.length_append, List.length_replicate, Nat.add_sub_cancel' h]

theorem le_of_mem_encodeFilled : ∀ b ∈ m.encodeFilled size, 0x20 ≤ b := by
  intro b hb
  rcases List.mem_append.mp hb with hb | hb
  · exact Json.le_of_mem_write _ b hb
  · exact List.eq_of_mem_replicate hb ▸ UInt8.le_refl _

theorem lineFeed_not_mem_encodeFilled : Lines.lineFeed ∉ m.encodeFilled size := fun h =>
  absurd (le_of_mem_encodeFilled _ h) (by decide)

/-- Spaces behind a message change nothing. -/
theorem decode_encodeFilled (ht : m.toJson.repair.isText = true) (hl : m.toJson.repair.IsLegible)
    (ho : m.toJson.repair.settle.isObject = true) :
    decode (m.encodeFilled size) = ofJson m.toJson.repair.settle := by
  have hp : Json.parse? (m.encodeFilled size) = some m.toJson.repair.settle :=
    ((Json.spells_write _ ht hl).spaces _).parse? le_of_mem_encodeFilled
  rw [decode, Frame.parse, hp]
  simp only [if_pos ho]
  rfl

end AgentMessage

namespace Fleet

open LineReader (PartsEnding IsRead)
open Lines (lineFeed)

variable {reads reads' : List Bytes}

/-- One finding is answered with one line. -/
theorem serve_of_run {f g : Fleet} {conn : Bytes} {now : Instant} {finding : Finding}
    (hc : f.connect conn now = .ok g) (hr : LineReader.run reads = [finding]) :
    (f.serve conn reads now).1 = [(g.answer conn now finding).1.encode] := by
  rw [serve, hc]
  simp only [converse, hr]
  rfl

/-- What a peer is answered and what is known afterwards depend on the bytes that come, and not on
how they are cut into reads, unless a read ends between the carriage return and the line feed of a
line that is the largest frame and a carriage return. -/
theorem serve_eq_of_flatten_eq (h : reads.flatten = reads'.flatten) (hr : ¬ PartsEnding [] reads)
    (hr' : ¬ PartsEnding [] reads') (f : Fleet) (conn : Bytes) (now : Instant) :
    f.serve conn reads now = f.serve conn reads' now := by
  have hrun : LineReader.run reads = LineReader.run reads' := by
    rw [LineReader.run_eq_findings_iff.mpr hr, LineReader.run_eq_findings_iff.mpr hr', h]
  have hserved (g : Fleet) : g.converse conn reads now = g.converse conn reads' now := by
    rw [converse, converse, hrun]
  rw [serve, serve]
  cases f.connect conn now with
  | ok g => exact hserved g
  | error => rfl

theorem serve_line_in_two_reads :
    sample.serve [9] [[0x61, 0x0d], [0x0a, 0x62, 0x0a]] 0 =
      sample.serve [9] [[0x61, 0x0d, 0x0a, 0x62, 0x0a]] 0 := by
  have htwo : ¬ PartsEnding [] [[0x61, 0x0d], [0x0a, 0x62, 0x0a]] :=
    LineReader.not_partsEnding_of_length_le (by decide)
  have hone : ¬ PartsEnding [] [[0x61, 0x0d, 0x0a, 0x62, 0x0a]] :=
    LineReader.not_partsEnding_of_length_le (by decide)
  have hsame : [[0x61, 0x0d], [0x0a, 0x62, 0x0a]].flatten =
      ([[0x61, 0x0d, 0x0a, 0x62, 0x0a]] : List Bytes).flatten := rfl
  exact serve_eq_of_flatten_eq hsame htwo hone sample [9] 0

/-- A message that fills the largest frame. -/
def largestFrame : Bytes :=
  ({ instanceId := [0x61] } : AgentMessage).encodeFilled LineReader.frameSize

theorem decode_largestFrame : AgentMessage.decode largestFrame = .ok { instanceId := [0x61] } := by
  rw [largestFrame, AgentMessage.decode_encodeFilled]
  · rfl
  · rfl
  · exact fun x hx => nomatch hx
  · rfl

/-- Full reads of the largest frame: the first one has the message, and the others are spaces. -/
def largestReads : List Bytes :=
  ({ instanceId := [0x61] } : AgentMessage).encodeFilled LineReader.readSize ::
    List.replicate 255 (List.replicate LineReader.readSize 0x20)

theorem flatten_largestReads : largestReads.flatten = largestFrame := by
  have hfill : LineReader.readSize - ({ instanceId := [0x61] } : AgentMessage).encode.length +
      255 * LineReader.readSize =
        LineReader.frameSize - ({ instanceId := [0x61] } : AgentMessage).encode.length := by decide
  rw [largestReads, List.flatten_cons, List.flatten_replicate_replicate, largestFrame,
    AgentMessage.encodeFilled, AgentMessage.encodeFilled, List.append_assoc,
    List.replicate_append_replicate, hfill]

theorem isRead_of_mem_largestReads : ∀ read ∈ largestReads, IsRead read := by
  have hfirst : (({ instanceId := [0x61] } : AgentMessage).encodeFilled
      LineReader.readSize).length = LineReader.readSize :=
    AgentMessage.length_encodeFilled (by decide)
  have hfull {read : Bytes} (h : read.length = LineReader.readSize) : IsRead read :=
    ⟨List.length_pos_iff.mp (by rw [h]; decide), Nat.le_of_eq h⟩
  refine List.forall_mem_cons.mpr ⟨hfull hfirst, fun read hread => ?_⟩
  rw [List.eq_of_mem_replicate hread]
  exact hfull List.length_replicate

/-- A message that fills the largest frame is answered if its carriage return and line feed come in
one read and rejected if they come in two. -/
theorem serve_parted_ending :
    (∀ read ∈ largestReads ++ [[0x0d, lineFeed], [0x0d], [lineFeed]], IsRead read) ∧
      (largestReads ++ [[0x0d, lineFeed]]).flatten =
        (largestReads ++ [[0x0d], [lineFeed]]).flatten ∧
      (sample.serve [9] (largestReads ++ [[0x0d, lineFeed]]) 0).1 =
        [(Reply.requestFullState { instanceId := [0x61] }).encode] ∧
      (sample.serve [9] (largestReads ++ [[0x0d], [lineFeed]]) 0).1 =
        [(Reply.rejection []).encode] ∧
      (Reply.requestFullState { instanceId := [0x61] }).encode ≠ (Reply.rejection []).encode := by
  let opened := sample.step (.connect [9] 0)
  have hopened : sample.connect [9] 0 = .ok opened := rfl
  have hlength : largestFrame.length = LineReader.frameSize :=
    AgentMessage.length_encodeFilled (by decide)
  have hclean : lineFeed ∉ largestFrame := AgentMessage.lineFeed_not_mem_encodeFilled
  obtain ⟨hwhole, hparted⟩ := LineReader.run_largest hlength hclean flatten_largestReads
  refine ⟨?_, ?_, ?_, ?_, by decide⟩
  · refine List.forall_mem_append.mpr ⟨isRead_of_mem_largestReads, ?_⟩
    simp [IsRead, LineReader.readSize]
  · rw [List.flatten_append, List.flatten_append]
    rfl
  · have hanswer : (opened.answer [9] 0 (.frame largestFrame)).1 =
        Reply.requestFullState { instanceId := [0x61] } := by
      rw [answer, receiveFrame, decode_largestFrame]
      rfl
    rw [serve_of_run hopened hwhole, hanswer]
  · rw [serve_of_run hopened hparted]
    rfl

end Fleet

end FleetControl
