import FleetControl.Proofs.Session.Coherence
import FleetControl.Proofs.Session.Serve

/-!
# Answering — one line for every line

What a reader finds in a stream is one finding for each of its lines that is not blank, in their
order, and one more if the stream ends in a line that is too long (`found_run`).  This needs nothing
of the reads: where they end decides only whether a line that is the largest frame and a carriage
return is a frame or too long, which `Finds` leaves open.

So a connection is answered with one line for every line that is not blank (`Answers`), each in the
state that the lines before left, and one more for the end of the stream if that is too long
(`every_line_answered_once`).  Every line is answered at a time of its own (`serveAt`); a clock that
stands still is a case of this (`serve_eq_serveAt`).
-/

namespace FleetControl

namespace LineReader

open Lines (lineFeed cut)

variable {r : LineReader} {text line bytes : Bytes} {found : List Finding} {reads : List Bytes}

/-- A line without anything that could be a frame. -/
def IsBlank (line : Bytes) : Prop := line = [] ∨ line = [0x0d]

instance (line : Bytes) : Decidable (IsBlank line) := inferInstanceAs (Decidable (_ ∨ _))

/-- The lines that are not blank. -/
def nonblank (lines : List Bytes) : List Bytes := lines.filter fun line => ¬ IsBlank line

/-- A line that is the largest frame and a carriage return. -/
def IsLargest (line : Bytes) : Prop := line.length = frameSize + 1 ∧ line.getLast? = some 0x0d

/-- What may be found in a line: a frame, or that it is too long.  If it is a largest frame and a
carriage return, it may be either. -/
inductive Finds (line : Bytes) : Finding → Prop where
  | frame (h : line.length ≤ frameSize ∨ IsLargest line) : Finds line (.frame (dropReturn line))
  | oversize (h : frameSize < line.length) : Finds line .oversize

/-- What a text may be found to hold: something in each of its lines that is not blank, and a torn
line that is too long. -/
def Found (text : Bytes) (found : List Finding) : Prop :=
  ∃ inLines, List.Forall₂ Finds (nonblank (cut text).complete) inLines ∧
    found = inLines ++ if frameSize < (cut text).torn.length then [.oversize] else []

/-! ### One line -/

theorem length_dropReturn_le (line : Bytes) : (dropReturn line).length ≤ line.length := by
  rw [dropReturn]
  split
  · rw [List.length_dropLast]
    exact Nat.sub_le _ _
  · exact Nat.le_refl _

/-- A line that is no longer than a frame once its carriage return is dropped. -/
theorem length_dropReturn_le_iff :
    (dropReturn line).length ≤ frameSize ↔ line.length ≤ frameSize ∨ IsLargest line := by
  rw [dropReturn, IsLargest]
  split
  · rename_i hr
    rw [List.length_dropLast]
    simp only [hr, and_true]
    omega
  · rename_i hr
    simp only [hr, and_false, or_false]

theorem dropReturn_eq_nil_iff : dropReturn line = [] ↔ IsBlank line := by
  rw [IsBlank, dropReturn]
  split
  · rename_i hr
    obtain ⟨front, rfl⟩ := List.getLast?_eq_some_iff.mp hr
    rw [List.dropLast_concat]
    cases front <;> simp
  · rename_i hr
    constructor
    · exact .inl
    · rintro (h | h)
      · exact h
      · rw [h] at hr
        exact absurd rfl hr

theorem classify_eq_none_iff : classify line = none ↔ IsBlank line := by
  rw [← dropReturn_eq_nil_iff, ← List.isEmpty_iff]
  simp only [classify]
  split
  · simp [*]
  · split <;> simp [*]

theorem finds_of_classify {finding : Finding} (h : classify line = some finding) :
    Finds line finding := by
  simp only [classify] at h
  split at h
  · cases h
  · split at h
    · rename_i hlong
      cases h
      exact .oversize (Nat.lt_of_lt_of_le hlong (length_dropReturn_le line))
    · rename_i hfits
      cases h
      exact .frame (length_dropReturn_le_iff.mp (Nat.le_of_not_lt hfits))

/-- What the complete lines of one buffer are is something in each that is not blank. -/
theorem forall₂_classify (lines : List Bytes) :
    List.Forall₂ Finds (nonblank lines) (lines.filterMap classify) := by
  induction lines with
  | nil => exact .nil
  | cons line lines ih =>
      rw [nonblank, List.filter_cons]
      cases h : classify line with
      | none =>
          have hblank : IsBlank line := classify_eq_none_iff.mp h
          rw [List.filterMap_cons_none h, if_neg (by simpa using hblank)]
          exact ih
      | some finding =>
          have hblank : ¬ IsBlank line := fun hb => by
            rw [classify_eq_none_iff.mpr hb] at h
            cases h
          rw [List.filterMap_cons_some h, if_pos (by simpa using hblank)]
          exact .cons (finds_of_classify h) ih

/-! ### Reads one after the other -/

theorem nonblank_append (lines more : List Bytes) :
    nonblank (lines ++ more) = nonblank lines ++ nonblank more := List.filter_append _ _

theorem nonblank_of_long (h : frameSize < line.length) (lines : List Bytes) :
    nonblank (line :: lines) = line :: nonblank lines := by
  have hblank : ¬ IsBlank line := by
    rintro (rfl | rfl) <;> exact absurd h (by decide)
  rw [nonblank, List.filter_cons, if_pos (by simpa using hblank)]
  rfl

theorem Found.feed_kept (hf : Found text found) (h : r.Holds (cut text).torn)
    (hd : r.discarding = false) (bytes : Bytes) :
    Found (text ++ bytes) (found ++ (r.feed bytes).1) := by
  obtain ⟨inLines, hlines, rfl⟩ := hf
  have hcut := Lines.cut_append_text text bytes
  have hfits : ¬ frameSize < (cut text).torn.length := fun hlong => by
    rw [h.discarding_iff.mpr hlong] at hd
    cases hd
  rw [if_neg hfits, List.append_nil, feed_of_kept h hd, (feed_start _).1]
  refine ⟨inLines ++ (cut ((cut text).torn ++ bytes)).complete.filterMap classify, ?_, ?_⟩
  · rw [hcut, nonblank_append]
    exact List.rel_append hlines (forall₂_classify _)
  · rw [hcut, findings, List.append_assoc]

theorem Found.feed_discarding (hf : Found text found) (h : r.Holds (cut text).torn)
    (hd : r.discarding = true) (bytes : Bytes) :
    Found (text ++ bytes) (found ++ (r.feed bytes).1) := by
  obtain ⟨inLines, hlines, rfl⟩ := hf
  have hcut := Lines.cut_append_text text bytes
  have hlong : frameSize < (cut text).torn.length := h.discarding_iff.mp hd
  have hlonger (tail : Bytes) : frameSize < ((cut text).torn ++ tail).length := by
    rw [List.length_append]
    exact Nat.lt_add_right _ hlong
  rw [if_pos hlong]
  by_cases hb : lineFeed ∈ bytes
  · -- the line ends, and what follows it is read as by a new reader
    obtain ⟨tail, rest, rfl, ht⟩ := List.eq_append_cons_of_mem hb
    have hline : lineFeed ∉ (cut text).torn ++ tail := fun hm =>
      (List.mem_append.mp hm).elim (Lines.cut_clean text).2 ht
    rw [← List.append_assoc (cut text).torn, Lines.cut_line hline] at hcut
    rw [feed_end h hd ht, (feed_start rest).1]
    refine ⟨inLines ++ .oversize :: (cut rest).complete.filterMap classify, ?_, ?_⟩
    · rw [hcut, nonblank_append, nonblank_of_long (hlonger tail)]
      exact List.rel_append hlines (.cons (.oversize (hlonger tail)) (forall₂_classify _))
    · rw [hcut, findings, List.append_assoc, List.append_assoc]
      rfl
  · have hline : lineFeed ∉ (cut text).torn ++ bytes := fun hm =>
      (List.mem_append.mp hm).elim (Lines.cut_clean text).2 hb
    rw [Lines.cut_of_not_mem hline, List.append_nil] at hcut
    rw [(feed_passing h hd hb).1, List.append_nil]
    exact ⟨inLines, by rw [hcut]; exact hlines, by rw [hcut, if_pos (hlonger bytes)]⟩

/-- What a read completes is found in addition to what was found before. -/
theorem Found.feed (hf : Found text found) (h : r.Holds (cut text).torn) (bytes : Bytes) :
    Found (text ++ bytes) (found ++ (r.feed bytes).1) := by
  cases hd : r.discarding with
  | false => exact hf.feed_kept h hd bytes
  | true => exact hf.feed_discarding h hd bytes

theorem Found.readAll (hf : Found text found) (h : r.Holds (cut text).torn)
    (reads : List Bytes) : Found (text ++ reads.flatten) (found ++ (r.readAll reads).1) := by
  induction reads generalizing r text found with
  | nil => simpa [LineReader.readAll] using hf
  | cons bytes reads ih =>
      rw [List.flatten_cons, ← List.append_assoc, readAll_cons, ← List.append_assoc]
      exact ih (hf.feed h bytes) (h.feed bytes)

/-- However a stream is cut into reads, something is found in each of its lines that is not blank,
and one more if it ends in a line that is too long. -/
theorem found_run (reads : List Bytes) : Found reads.flatten (run reads) := by
  have hstart : Found [] [] := ⟨[], .nil, rfl⟩
  have h := hstart.readAll holds_start reads
  rwa [List.nil_append, List.nil_append, ← run_eq_readAll] at h

end LineReader

namespace Fleet

open LineReader (IsLargest nonblank dropReturn frameSize)

variable {f g f₀ : Fleet} {conn : Bytes} {clock : ℕ → Instant} {lines : List Bytes}
  {replies : List Reply} {findings : List Finding}

/-! ### Serving with a time for every line -/

/-- Answers findings one after the other, each at a time of its own. -/
def answerEach (f : Fleet) (conn : Bytes) (clock : ℕ → Instant) :
    List Finding → List Reply × Fleet
  | [] => ([], f)
  | finding :: findings =>
    let answered := f.answer conn (clock 0) finding
    let rest := answered.2.answerEach conn (fun n => clock (n + 1)) findings
    (answered.1 :: rest.1, rest.2)

/-- Serves a connection from its opening on, which and every answer after it has a time of its own;
one whose id is refused is not served. -/
def serveAt (f : Fleet) (conn : Bytes) (reads : List Bytes) (clock : ℕ → Instant) :
    List Bytes × Fleet :=
  match f.connect conn (clock 0) with
  | .ok f =>
    let answered := f.answerEach conn (fun n => clock (n + 1)) (LineReader.run reads)
    (answered.1.map Reply.encode, answered.2.disconnect conn)
  | .error _ => ([], f)

theorem answerAll_eq_answerEach (f : Fleet) (conn : Bytes) (now : Instant)
    (findings : List Finding) :
    f.answerAll conn now findings = f.answerEach conn (fun _ => now) findings := by
  have fold : ∀ (done : List Reply) (f : Fleet),
      findings.foldl (fun (state : List Reply × Fleet) finding =>
          ((state.2.answer conn now finding).1 :: state.1,
            (state.2.answer conn now finding).2)) (done, f) =
        ((f.answerEach conn (fun _ => now) findings).1.reverse ++ done,
          (f.answerEach conn (fun _ => now) findings).2) := by
    induction findings with
    | nil => intro done f; rfl
    | cons finding findings ih =>
        intro done f
        rw [List.foldl_cons, ih, answerEach, List.reverse_cons, List.append_assoc]
        rfl
  have h := fold [] f
  rw [List.append_nil] at h
  exact Prod.ext ((congrArg (fun out => out.1.reverse) h).trans (List.reverse_reverse _))
    (congrArg (fun out => out.2) h)

/-- Serving at one time is serving with a clock that stands still. -/
theorem serve_eq_serveAt (f : Fleet) (conn : Bytes) (reads : List Bytes) (now : Instant) :
    f.serve conn reads now = f.serveAt conn reads fun _ => now := by
  rw [serve, serveAt]
  cases f.connect conn now with
  | ok g => simp only [converse, answerAll_eq_answerEach]
  | error => rfl

/-! ### Line by line -/

/-- How the lines of a connection are answered one after the other, each at its time and in the
state that the one before left.  A line that is too long is rejected without being looked at. -/
inductive Answers (conn : Bytes) :
    Fleet → (ℕ → Instant) → List Bytes → List Reply → Fleet → Prop where
  | nil {f : Fleet} {clock : ℕ → Instant} : Answers conn f clock [] [] f
  | frame {f g h : Fleet} {clock : ℕ → Instant} {line : Bytes} {reply : Reply} {lines : List Bytes}
      {replies : List Reply} (hl : line.length ≤ frameSize ∨ IsLargest line)
      (hr : f.receiveFrame conn (dropReturn line) (clock 0) = (reply, g))
      (rest : Answers conn g (fun n => clock (n + 1)) lines replies h) :
      Answers conn f clock (line :: lines) (reply :: replies) h
  | oversize {f g : Fleet} {clock : ℕ → Instant} {line : Bytes} {lines : List Bytes}
      {replies : List Reply} (hl : frameSize < line.length)
      (rest : Answers conn f (fun n => clock (n + 1)) lines replies g) :
      Answers conn f clock (line :: lines) (.rejection [] :: replies) g

/-- What is found in lines is answered line by line. -/
theorem answers_of_finds (h : List.Forall₂ LineReader.Finds lines findings) (f : Fleet)
    (conn : Bytes) (clock : ℕ → Instant) :
    Answers conn f clock lines (f.answerEach conn clock findings).1
      (f.answerEach conn clock findings).2 := by
  induction h generalizing f clock with
  | nil => exact .nil
  | cons hfinds _ ih =>
      cases hfinds with
      | frame hl => exact .frame hl rfl (ih _ _)
      | oversize hl => exact .oversize hl (ih _ _)

/-- What is too long at the end is rejected. -/
theorem answerEach_append_torn (f : Fleet) (conn : Bytes) (clock : ℕ → Instant)
    (findings : List Finding) (p : Prop) [Decidable p] :
    f.answerEach conn clock (findings ++ if p then [.oversize] else []) =
      ((f.answerEach conn clock findings).1 ++ (if p then [.rejection []] else []),
        (f.answerEach conn clock findings).2) := by
  induction findings generalizing f clock with
  | nil => split <;> rfl
  | cons finding findings ih => rw [List.cons_append, answerEach, ih]; rfl

theorem Answers.coherent (h : Answers conn f clock lines replies g) (hf : f.Coherent) :
    g.Coherent := by
  induction h with
  | nil => exact hf
  | @frame f _ _ clock line reply _ _ _ hr _ ih =>
      refine ih ?_
      have hstep := hf.step (.frame conn (dropReturn line) (clock 0))
      rwa [step, react, hr] at hstep
  | oversize _ _ ih => exact ih hf

/-- A connection with an id of its own can be opened. -/
theorem Coherent.connect_ok (hf : f.Coherent) (hc : conn ≠ [])
    (hfree : f.sessions.contains conn = false) (now : Instant) :
    ∃ opened, f.connect conn now = .ok opened ∧ opened.Coherent := by
  have hnone : f.sessions.get? conn = none := Option.not_isSome_iff_eq_none.mp
    (Bool.eq_false_iff.mp hfree)
  have hentry : f.registry.entries.contains conn = false := by
    have hb : f.registry.binding conn = none := by
      rw [hf.registered, binding, hnone, Option.map_none]
    rw [Sharded.contains, Option.map_eq_none_iff.mp hb]
    rfl
  have hregister : f.registry.register conn now = .ok { f.registry with
      entries := f.registry.entries.insert conn { lastHeard := now } } := by
    rw [Registry.register, if_neg (by simpa using hc), hentry]
    rfl
  refine ⟨_, by rw [connect, hregister]; rfl, ?_⟩
  exact hf.opens hregister

/-- A connection that is free is opened, and one line is written for every line of its stream that
is not blank, in their order, and one more if the stream ends in a line that is too long.  A line up
to the largest frame is answered as the frame that it is without its carriage return; one that is
longer is rejected, and the lines after it are answered like any.  Afterwards nothing refers to the
connection. -/
theorem every_line_answered_once (hf : f₀.IsSetUp) (es : List Event) (hc : conn ≠ [])
    (hfree : (f₀.run es).sessions.contains conn = false) (reads : List Bytes)
    (clock : ℕ → Instant) :
    let text := Lines.cut reads.flatten
    ∃ opened replies g, (f₀.run es).connect conn (clock 0) = .ok opened ∧
      Answers conn opened (fun n => clock (n + 1)) (nonblank text.complete) replies g ∧
      (f₀.run es).serveAt conn reads clock =
        ((replies ++ if frameSize < text.torn.length then [Reply.rejection []] else []).map
          Reply.encode, g.disconnect conn) ∧
      (g.disconnect conn).sessions.get? conn = none ∧
      (g.disconnect conn).registry.entries.get? conn = none ∧
      ∀ i a, (g.disconnect conn).agents.find i = .ok a → a.connection ≠ some conn := by
  intro text
  obtain ⟨opened, hopened, hcoherent⟩ := (Coherent.of_run hf es).connect_ok hc hfree (clock 0)
  obtain ⟨inLines, hfinds, hrun⟩ := LineReader.found_run reads
  have hanswers := answers_of_finds hfinds opened conn fun n => clock (n + 1)
  refine ⟨opened, _, _, hopened, hanswers, ?_, (hanswers.coherent hcoherent).gone conn⟩
  rw [serveAt, hopened]
  simp only [hrun, answerEach_append_torn]
  rfl

/-- One line that is no message and one that is blank, in two reads, and an end without a line
feed. -/
theorem lines_of_sample_answered :
    let reads : List Bytes := [[0x61, 0x0d], [0x0a, 0x0d, 0x0a, 0x62]]
    ∃ opened replies g, sample.connect [9] 0 = .ok opened ∧
      Answers [9] opened (fun _ => 0) [[0x61, 0x0d]] replies g ∧
      sample.serve [9] reads 0 = (replies.map Reply.encode, g.disconnect [9]) ∧
      (g.disconnect [9]).sessions.get? [9] = none := by
  intro reads
  have hnamed : ([9] : Bytes) ≠ [] := List.cons_ne_nil _ _
  have hfree : (sample.run []).sessions.contains [9] = false := rfl
  obtain ⟨opened, replies, g, hopened, hanswers, hserve, hgone, -⟩ :=
    every_line_answered_once sample_isFresh.isSetUp [] hnamed hfree reads fun _ => 0
  have htorn : ¬ frameSize < (Lines.cut reads.flatten).torn.length := by decide
  rw [if_neg htorn, List.append_nil] at hserve
  exact ⟨opened, replies, g, hopened, hanswers, (serve_eq_serveAt _ _ _ _).trans hserve, hgone⟩

end Fleet

end FleetControl
