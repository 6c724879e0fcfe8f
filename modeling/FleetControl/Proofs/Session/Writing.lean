import FleetControl.Proofs.Bytes.Lines
import FleetControl.Session.Writing

/-!
# Lines into a stream — what can be cut out of it again

Whatever a transport answers, it takes bytes of a line from the front, and the line is whole exactly
if all of it was taken (`send_prefix`, `isWhole_send_iff`).  A stream of frames without line feeds is
therefore cut into just the frames that were written as a whole, and a torn rest if the transport
failed in between (`cut_writeFrames`).  A transport that goes on to take bytes and does not fail
takes all frames (`writeFrames_all`).
-/

namespace FleetControl

/-- Whether a transport makes headway. -/
def Sent.isProgress : Sent → Bool
  | .taken count => count != 0
  | .interrupted | .failed => false

namespace LineWriter

open Lines (lineFeed join cut Clean)

variable {data frame : Bytes} {frames : List Bytes} {answers : List Sent}

/-! ### One line -/

theorem send_prefix (data : Bytes) (answers : List Sent) : (send data answers).bytes <+: data := by
  fun_induction send data answers with
  | case1 | case2 | case3 => exact List.nil_prefix
  | case4 data answers hne ih => exact ih
  | case5 data count answers hne written ih =>
      have h := (List.prefix_append_right_inj (data.take count)).mpr ih
      rwa [List.take_append_drop] at h

theorem isWhole_send_iff (data : Bytes) (answers : List Sent) :
    (send data answers).isWhole = true ↔ (send data answers).bytes = data := by
  fun_induction send data answers with
  | case1 => exact ⟨fun _ => rfl, fun _ => rfl⟩
  | case2 data hne | case3 data answers hne =>
      exact ⟨fun h => (Bool.false_ne_true h).elim, fun h => (hne h.symm).elim⟩
  | case4 data answers hne ih => exact ih
  | case5 data count answers hne written ih =>
      rw [ih, ← List.append_right_inj (data.take count), List.take_append_drop]

/-- A line that is not whole lacks its line feed. -/
theorem not_mem_writeFrame (hl : lineFeed ∉ frame)
    (h : (writeFrame frame answers).isWhole = false) :
    lineFeed ∉ (writeFrame frame answers).bytes := by
  have hprefix := send_prefix (frame ++ [lineFeed]) answers
  rcases List.prefix_concat_iff.mp hprefix with hall | hpart
  · rw [writeFrame, (isWhole_send_iff _ _).mpr hall] at h
    cases h
  · exact fun hm => hl (hpart.subset hm)

/-- As long as a transport does not fail and makes headway, it takes what it is given. -/
theorem send_all (hf : .failed ∉ answers)
    (h : data.length ≤ answers.countP Sent.isProgress) :
    (send data answers).isWhole = true ∧ .failed ∉ (send data answers).answers ∧
      answers.countP Sent.isProgress ≤
        data.length + (send data answers).answers.countP Sent.isProgress := by
  fun_induction send data answers with
  | case1 answers => exact ⟨rfl, hf, Nat.le_add_left _ _⟩
  | case2 data hne => exact absurd (List.eq_nil_of_length_eq_zero (Nat.le_zero.mp h)) hne
  | case3 data answers hne => exact absurd List.mem_cons_self hf
  | case4 data answers hne ih =>
      rw [List.countP_cons_of_neg Bool.false_ne_true] at h ⊢
      exact ih (fun hm => hf (List.mem_cons_of_mem _ hm)) h
  | case5 data count answers hne written ih =>
      have hpos := List.length_pos_iff.mpr hne
      -- an answer that takes nothing does not count as headway
      have hcount : (Sent.taken count :: answers).countP Sent.isProgress ≤
          answers.countP Sent.isProgress + 1 ∧ (count = 0 →
          (Sent.taken count :: answers).countP Sent.isProgress =
            answers.countP Sent.isProgress) := by
        rw [List.countP_cons]
        refine ⟨by split <;> omega, ?_⟩
        rintro rfl
        rfl
      obtain ⟨hstep, hnone⟩ := hcount
      have hdrop : (data.drop count).length = data.length - count := List.length_drop
      obtain ⟨hwhole, hrest, hle⟩ :=
        ih (fun hm => hf (List.mem_cons_of_mem _ hm)) (by omega)
      refine ⟨hwhole, hrest, ?_⟩
      change _ ≤ data.length + (send (data.drop count) answers).answers.countP Sent.isProgress
      omega

/-! ### Frames one after the other -/

/-- The stream holds the frames that were written as a whole, and then nothing of a line feed. -/
theorem writeFrames_eq (hc : Clean frames) (answers : List Sent) :
    (writeFrames frames answers).2 ≤ frames.length ∧ ∃ torn, lineFeed ∉ torn ∧
      (writeFrames frames answers).1 =
        join (frames.take (writeFrames frames answers).2) ++ torn ∧
      ((writeFrames frames answers).2 = frames.length → torn = []) := by
  induction frames generalizing answers with
  | nil => exact ⟨Nat.le_refl _, [], List.not_mem_nil, rfl, fun _ => rfl⟩
  | cons frame frames ih =>
      obtain ⟨hl, hrest⟩ := List.forall_mem_cons.mp hc
      cases hw : (writeFrame frame answers).isWhole with
      | true =>
          have hline : (writeFrame frame answers).bytes = frame ++ [lineFeed] :=
            (isWhole_send_iff _ _).mp hw
          obtain ⟨hle, torn, htorn, hstream, hall⟩ := ih hrest (writeFrame frame answers).answers
          simp only [writeFrames, hw, if_true, hline]
          refine ⟨Nat.succ_le_succ hle, torn, htorn, ?_, fun h => hall (Nat.succ.inj h)⟩
          rw [hstream, List.take_succ_cons, Lines.join_cons, List.append_assoc, List.append_assoc]
          rfl
      | false =>
          simp only [writeFrames, hw, Bool.false_eq_true, if_false]
          exact ⟨Nat.zero_le _, _, not_mem_writeFrame hl hw, rfl, fun h => nomatch h⟩

/-- A stream is cut into the frames that were written as a whole. -/
theorem cut_writeFrames (hc : Clean frames) (answers : List Sent) :
    (cut (writeFrames frames answers).1).complete =
        frames.take (writeFrames frames answers).2 ∧
      ((writeFrames frames answers).2 = frames.length →
        cut (writeFrames frames answers).1 = ⟨frames, []⟩) := by
  obtain ⟨-, torn, htorn, hstream, hall⟩ := writeFrames_eq hc answers
  have htake : Clean (frames.take (writeFrames frames answers).2) :=
    fun line hm => hc line (List.mem_of_mem_take hm)
  have hcut := Lines.cut_join htake htorn
  rw [← hstream] at hcut
  refine ⟨by rw [hcut], fun h => ?_⟩
  rw [hcut, hall h, h, List.take_length]

/-- The second frame is torn. -/
example : writeFrames [utf8 "ab", utf8 "cd"] [.taken 2, .interrupted, .taken 1, .taken 1, .failed] =
    (utf8 "ab\nc", 1) := by
  decide

/-- A transport that does not fail, and makes headway often enough, takes all frames. -/
theorem writeFrames_all (hf : .failed ∉ answers)
    (h : (join frames).length ≤ answers.countP Sent.isProgress) :
    (writeFrames frames answers).2 = frames.length := by
  induction frames generalizing answers with
  | nil => rfl
  | cons frame frames ih =>
      rw [Lines.join_cons, List.append_cons, List.length_append] at h
      obtain ⟨hwhole, hf', hle⟩ := send_all hf (Nat.le_trans (Nat.le_add_right _ _) h)
      have hrest := ih hf' (by omega)
      simp only [writeFrames, writeFrame, hwhole, if_true, hrest, List.length_cons]

end LineWriter

end FleetControl
