import FleetControl.Proofs.Bytes.Lines
import FleetControl.Session.Lines

/-!
# Lines out of a stream — what a reader finds, whatever the reads

The findings of a text are known from the text alone (`findings`): what its complete lines are, and
one finding for a torn line that is too long for a frame.  A new reader that gets the whole text in
one read finds them (`feed_start`), and what a reader that `Holds` a torn line finds in the next
read is what a new reader finds in the line and the read together (`feed_of_kept`), or, if it passes
over the line, in what follows the line (`feed_end`).

Only one thing shows where a stream was cut into reads.  A line that is the largest frame and a
carriage return is too long as long as its line feed has not come, so it is a frame if both come in
one read and too long if a read ends between them (`PartsEnding`).  Apart from that the reads come
to the findings of the text: `run_eq_findings_iff`.  So do the reads that a stream is cut into if it
comes all at once, as none of them ends in front of a line feed behind a carriage return
(`run_reads`).
-/

namespace FleetControl.LineReader

open Lines (lineFeed cut)

variable {r : LineReader} {buffer : Array UInt8} {text line bytes rest : Bytes} {i : Nat}
  {reads : List Bytes}

/-! ### The search for a line feed -/

/-- A byte that is no line feed is passed. -/
theorem not_mem_take_succ (h : i < buffer.size) (hi : lineFeed ∉ buffer.toList.take i)
    (hb : buffer[i] ≠ lineFeed) : lineFeed ∉ buffer.toList.take (i + 1) := by
  rw [List.take_succ_eq_append_getElem (by rwa [Array.length_toList]), List.mem_append,
    List.mem_singleton, Array.getElem_toList]
  exact fun hm => hm.elim hi fun e => hb e.symm

/-- A search from where there is none before finds the first line feed of the buffer. -/
theorem lineFeedFrom_some {j : Fin buffer.size} (h : lineFeedFrom buffer i = some j)
    (hi : lineFeed ∉ buffer.toList.take i) :
    lineFeed ∉ buffer.toList.take j ∧ buffer[j] = lineFeed := by
  fun_induction lineFeedFrom buffer i with
  | case1 i hlt he => cases h; exact ⟨hi, he⟩
  | case2 i hlt hne ih => exact ih h (not_mem_take_succ hlt hi hne)
  | case3 => cases h

/-- A search that ends without a line feed has shown that there is none. -/
theorem lineFeedFrom_none (h : lineFeedFrom buffer i = none)
    (hi : lineFeed ∉ buffer.toList.take i) : lineFeed ∉ buffer.toList := by
  fun_induction lineFeedFrom buffer i with
  | case1 => cases h
  | case2 i hlt hne ih => exact ih h (not_mem_take_succ hlt hi hne)
  | case3 i hge =>
      rwa [List.take_of_length_le (by rw [Array.length_toList]; exact Nat.le_of_not_lt hge)] at hi

/-- The first line feed of a buffer ends the first of its lines. -/
theorem cut_split {j : Fin buffer.size} (hclean : lineFeed ∉ buffer.toList.take j)
    (h : buffer[j] = lineFeed) :
    cut buffer.toList =
      ⟨(buffer.extract 0 j).toList :: (cut (buffer.extract (j + 1) buffer.size).toList).complete,
        (cut (buffer.extract (j + 1) buffer.size).toList).torn⟩ := by
  have hj : (j : Nat) < buffer.toList.length := by rw [Array.length_toList]; exact j.isLt
  have hline : (buffer.extract 0 j).toList = buffer.toList.take j := by
    rw [Array.toList_extract, List.extract_eq_take_drop, List.drop_zero, Nat.sub_zero]
  have hrest : (buffer.extract (j + 1) buffer.size).toList = buffer.toList.drop (j + 1) := by
    rw [Array.toList_extract, List.extract_eq_take_drop, List.take_of_length_le]
    exact Nat.le_of_eq (by rw [List.length_drop, Array.length_toList])
  have hget : buffer.toList[(j : Nat)] = lineFeed := by rw [Array.getElem_toList]; exact h
  have hsplit : buffer.toList =
      buffer.toList.take j ++ lineFeed :: buffer.toList.drop (j + 1) := by
    rw [← hget, ← List.drop_eq_getElem_cons hj, List.take_append_drop]
  rw [hline, hrest, ← Lines.cut_line hclean, ← hsplit]

/-! ### One read -/

/-- The first line is found first. -/
theorem filterMap_classify_cons (line : Bytes) (lines : List Bytes) :
    (line :: lines).filterMap classify = (classify line).toList ++ lines.filterMap classify := by
  rw [List.filterMap_cons]
  cases classify line <;> rfl

/-- The complete lines that are lines of their own: the end of one that was found to be too long is
none. -/
def ownLines (discarding : Bool) (lines : List Bytes) : List Bytes :=
  if discarding then lines.tail else lines

/-- Taking the complete lines out of a buffer is cutting it. -/
theorem drain_eq (hs : lineFeed ∉ r.buffer.toList.take r.scanFrom) (found : List Finding) :
    r.drain found =
      (((ownLines r.discarding (cut r.buffer.toList).complete).filterMap classify).reverse ++ found,
        { buffer := (cut r.buffer.toList).torn.toArray
          scanFrom := (cut r.buffer.toList).torn.length
          discarding := r.discarding && (cut r.buffer.toList).complete.isEmpty }) := by
  fun_induction drain r found with
  | case1 r found h =>
      have hown : ownLines r.discarding [] = [] := by rw [ownLines]; split <;> rfl
      rw [Lines.cut_of_not_mem (lineFeedFrom_none h hs), hown]
      simp
  | case2 r found i h rest hd ih =>
      obtain ⟨hclean, hi⟩ := lineFeedFrom_some h hs
      rw [ih (by simp [rest]), cut_split hclean hi, hd]
      rfl
  | case3 r found i h line rest hd ih =>
      obtain ⟨hclean, hi⟩ := lineFeedFrom_some h hs
      have hd : r.discarding = false := Bool.eq_false_iff.mpr hd
      have hone : (classify line).toList.reverse = (classify line).toList := by
        cases classify line <;> rfl
      rw [ih (by simp [rest]), cut_split hclean hi, hd]
      simp only [ownLines, Bool.false_eq_true, if_false, rest, filterMap_classify_cons,
        List.reverse_append, List.append_assoc]
      rw [hone]
      rfl

/-- What one read completes is in the cut of the buffer and the read together. -/
theorem feed_eq (hs : r.scanFrom = r.buffer.size) (hc : lineFeed ∉ r.buffer.toList)
    (bytes : Bytes) :
    let c := cut (r.buffer.toList ++ bytes)
    let found := (ownLines r.discarding c.complete).filterMap classify
    let passing := r.discarding && c.complete.isEmpty
    r.feed bytes =
      if frameSize < c.torn.length then
        (found ++ if passing then [] else [.oversize], { discarding := true })
      else (found, { buffer := c.torn.toArray, scanFrom := c.torn.length, discarding := passing })
    := by
  intro c found passing
  have hbuffer : (r.buffer ++ bytes.toArray).toList = r.buffer.toList ++ bytes := by simp
  have hstart : lineFeed ∉ (r.buffer ++ bytes.toArray).toList.take r.scanFrom := by
    rw [hbuffer, hs, ← Array.length_toList, List.take_left]
    exact hc
  rw [feed, drain_eq hstart, hbuffer]
  simp only [shed, List.size_toArray, List.append_nil]
  split
  · split <;> simp [found, c, *]
  · simp [found, passing, c]

/-- What a reader knows of the line that it is in the middle of: all of it, or that it was found to
be too long. -/
structure Holds (r : LineReader) (line : Bytes) : Prop where
  scanned : r.scanFrom = r.buffer.size
  clean : lineFeed ∉ r.buffer.toList
  bounded : r.buffer.size ≤ frameSize
  discarding : r.discarding = decide (frameSize < line.length)
  kept : r.discarding = false → r.buffer.toList = line

/-- What a text holds: its complete lines, and a torn line that is too long. -/
def findings (text : Bytes) : List Finding :=
  (cut text).complete.filterMap classify ++
    if frameSize < (cut text).torn.length then [.oversize] else []

/-- A new reader is in the middle of an empty line. -/
theorem holds_start : ({} : LineReader).Holds [] :=
  ⟨rfl, List.not_mem_nil, Nat.zero_le _, by decide, fun _ => rfl⟩

/-- A reader that passes over a line knows nothing but that it is too long. -/
theorem holds_discarding (h : frameSize < line.length) :
    ({ discarding := true } : LineReader).Holds line :=
  ⟨rfl, List.not_mem_nil, Nat.zero_le _, (decide_eq_true h).symm, nofun⟩

/-- A new reader finds what the text holds and is in the middle of its torn line. -/
theorem feed_start (text : Bytes) :
    (feed {} text).1 = findings text ∧ (feed {} text).2.Holds (cut text).torn := by
  have h := feed_eq (r := {}) rfl List.not_mem_nil text
  simp only [ownLines, Bool.false_eq_true, if_false, Bool.false_and, List.nil_append] at h
  rw [h, findings]
  split
  · rename_i hlong
    exact ⟨rfl, holds_discarding hlong⟩
  · rename_i hfits
    refine ⟨(List.append_nil _).symm, ?_⟩
    exact ⟨rfl, (Lines.cut_clean text).2, Nat.le_of_not_lt hfits, (decide_eq_false hfits).symm,
      fun _ => rfl⟩

/-- A reader that keeps its line finds what a new one finds in the line and the read. -/
theorem feed_of_kept (h : r.Holds line) (hd : r.discarding = false) (bytes : Bytes) :
    r.feed bytes = feed {} (line ++ bytes) := by
  rw [feed_eq h.scanned h.clean, feed_eq (r := {}) rfl List.not_mem_nil, hd, h.kept hd]
  rfl

/-- A reader that passes over its line finds what a new one finds behind the line. -/
theorem feed_end (h : r.Holds line) (hd : r.discarding = true) {tail : Bytes}
    (ht : lineFeed ∉ tail) (rest : Bytes) : r.feed (tail ++ lineFeed :: rest) = feed {} rest := by
  have hc : lineFeed ∉ r.buffer.toList ++ tail := fun hm =>
    (List.mem_append.mp hm).elim h.clean ht
  rw [feed_eq h.scanned h.clean, feed_eq (r := {}) rfl List.not_mem_nil, hd, ← List.append_assoc,
    Lines.cut_line hc]
  rfl

/-- A line that is passed over is passed over until its line feed comes. -/
theorem feed_passing (h : r.Holds line) (hd : r.discarding = true) (hb : lineFeed ∉ bytes) :
    (r.feed bytes).1 = [] ∧ (r.feed bytes).2.Holds (line ++ bytes) := by
  have hc : lineFeed ∉ r.buffer.toList ++ bytes := fun hm =>
    (List.mem_append.mp hm).elim h.clean hb
  have hlong : frameSize < (line ++ bytes).length := by
    have hl := h.discarding
    rw [hd] at hl
    rw [List.length_append]
    exact Nat.lt_add_right _ (of_decide_eq_true hl.symm)
  have hfeed := feed_eq h.scanned h.clean bytes
  rw [Lines.cut_of_not_mem hc, hd] at hfeed
  simp only [ownLines, List.isEmpty_nil, Bool.and_self, if_true] at hfeed
  rw [hfeed]
  split
  · exact ⟨rfl, holds_discarding hlong⟩
  · rename_i hfits
    exact ⟨rfl, rfl, hc, Nat.le_of_not_lt hfits, (decide_eq_true hlong).symm, nofun⟩

/-! ### Lines that are too long -/

/-- A read ends in front of the line feed of a line that is the largest frame and a carriage
return. -/
def Parted (line bytes : Bytes) : Prop :=
  line.length = frameSize + 1 ∧ line.getLast? = some 0x0d ∧ bytes.head? = some lineFeed

/-- A line that is too long is found to be, unless it is only its carriage return that is too
much. -/
theorem classify_of_long (h : frameSize < line.length)
    (hr : line.length = frameSize + 1 → line.getLast? ≠ some 0x0d) :
    classify line = some .oversize := by
  have hframe : frameSize < (dropReturn line).length := by
    rw [dropReturn]
    split
    · rename_i hl
      rw [List.length_dropLast]
      exact Nat.lt_sub_of_add_lt (Nat.lt_of_le_of_ne h fun e => hr e.symm hl)
    · exact h
  have hne : (dropReturn line).isEmpty = false :=
    List.isEmpty_eq_false_iff.mpr fun e => by
      rw [e] at hframe
      exact absurd hframe (Nat.not_lt_zero _)
  simp only [classify, hne, Bool.false_eq_true, if_false, if_pos hframe]

/-- The largest frame may be followed by a carriage return. -/
theorem classify_of_parted (h : line.length = frameSize + 1) (hr : line.getLast? = some 0x0d) :
    classify line = some (.frame line.dropLast) := by
  have hdrop : dropReturn line = line.dropLast := if_pos hr
  have hlen : line.dropLast.length = frameSize := by rw [List.length_dropLast, h]; rfl
  have hne : line.dropLast.isEmpty = false :=
    List.isEmpty_eq_false_iff.mpr fun e => by rw [e] at hlen; cases hlen
  simp only [classify, hdrop, hne, Bool.false_eq_true, if_false, hlen, Nat.lt_irrefl]

/-- What a text holds is what its complete lines hold and what the rest holds with more text. -/
theorem findings_append (text more : Bytes) :
    findings (text ++ more) =
      (cut text).complete.filterMap classify ++ findings ((cut text).torn ++ more) := by
  rw [findings, findings, Lines.cut_append_text, List.filterMap_append, List.append_assoc]

/-- A line is found as what it is, and then the rest is looked at. -/
theorem findings_line (h : lineFeed ∉ line) (rest : Bytes) :
    findings (line ++ lineFeed :: rest) = (classify line).toList ++ findings rest := by
  rw [findings, findings, Lines.cut_line h, filterMap_classify_cons, List.append_assoc]

/-- A torn line is only found if it is too long. -/
theorem findings_of_not_mem (h : lineFeed ∉ line) :
    findings line = if frameSize < line.length then [.oversize] else [] := by
  rw [findings, Lines.cut_of_not_mem h]
  rfl

/-! ### Reads one after the other -/

/-- A line is passed over just if it is longer than the largest frame. -/
theorem Holds.discarding_iff (h : r.Holds line) :
    r.discarding = true ↔ frameSize < line.length := by
  rw [h.discarding, decide_eq_true_iff]

/-- After a read the reader knows the line that the longer text breaks off in. -/
theorem Holds.feed (h : r.Holds (cut text).torn) (bytes : Bytes) :
    (r.feed bytes).2.Holds (cut (text ++ bytes)).torn := by
  rw [Lines.cut_append_text]
  cases hd : r.discarding with
  | false =>
      rw [feed_of_kept h hd]
      exact (feed_start _).2
  | true =>
      by_cases hb : lineFeed ∈ bytes
      · obtain ⟨tail, rest, rfl, ht⟩ := List.eq_append_cons_of_mem hb
        have hline : lineFeed ∉ (cut text).torn ++ tail := fun hm =>
          (List.mem_append.mp hm).elim (Lines.cut_clean text).2 ht
        rw [feed_end h hd ht, ← List.append_assoc, Lines.cut_line hline]
        exact (feed_start rest).2
      · have hline : lineFeed ∉ (cut text).torn ++ bytes := fun hm =>
          (List.mem_append.mp hm).elim (Lines.cut_clean text).2 hb
        rw [Lines.cut_of_not_mem hline]
        exact (feed_passing h hd hb).2

/-- Behind a line that is too long a read finds what follows the line. -/
theorem findings_feed_end (h : r.Holds (cut text).torn) (hd : r.discarding = true) {tail : Bytes}
    (ht : lineFeed ∉ tail) (rest : Bytes) :
    findings (text ++ (tail ++ lineFeed :: rest)) =
      (cut text).complete.filterMap classify ++ ((classify ((cut text).torn ++ tail)).toList ++
        (r.feed (tail ++ lineFeed :: rest)).1) := by
  have hline : lineFeed ∉ (cut text).torn ++ tail := fun hm =>
    (List.mem_append.mp hm).elim (Lines.cut_clean text).2 ht
  rw [findings_append, ← List.append_assoc (cut text).torn, findings_line hline, feed_end h hd ht,
    (feed_start rest).1]

/-- A read adds what it completes to the findings, unless it parts the end of a largest line. -/
theorem findings_feed (h : r.Holds (cut text).torn) (hp : ¬ Parted (cut text).torn bytes) :
    findings (text ++ bytes) = findings text ++ (r.feed bytes).1 := by
  cases hd : r.discarding with
  | false =>
      have hfits : ¬ frameSize < (cut text).torn.length := fun hlong => by
        rw [h.discarding_iff.mpr hlong] at hd
        cases hd
      rw [feed_of_kept h hd, (feed_start _).1, findings_append, findings.eq_1 text, if_neg hfits,
        List.append_nil]
  | true =>
      have hlong : frameSize < (cut text).torn.length := h.discarding_iff.mp hd
      by_cases hb : lineFeed ∈ bytes
      · obtain ⟨tail, rest, rfl, ht⟩ := List.eq_append_cons_of_mem hb
        have hline : classify ((cut text).torn ++ tail) = some .oversize := by
          refine classify_of_long ?_ fun hl hr => hp ?_
          · rw [List.length_append]
            exact Nat.lt_add_right _ hlong
          · -- nothing of the line but its line feed is still to come
            have htail : tail = [] := by
              rw [List.length_append] at hl
              exact List.eq_nil_of_length_eq_zero (by omega)
            subst htail
            rw [List.append_nil] at hl hr
            exact ⟨hl, hr, rfl⟩
        rw [findings_feed_end h hd ht, hline, findings.eq_1 text, if_pos hlong, List.append_assoc]
        rfl
      · have hline : lineFeed ∉ (cut text).torn ++ bytes := fun hm =>
          (List.mem_append.mp hm).elim (Lines.cut_clean text).2 hb
        have hlong' : frameSize < ((cut text).torn ++ bytes).length := by
          rw [List.length_append]
          exact Nat.lt_add_right _ hlong
        rw [findings_append, findings_of_not_mem hline, if_pos hlong', (feed_passing h hd hb).1,
          findings.eq_1 text, if_pos hlong, List.append_nil]

/-- A read that parts the end of a largest line takes the line for too long that is a frame. -/
theorem findings_feed_parted (h : r.Holds (cut text).torn) (hp : Parted (cut text).torn bytes) :
    ∃ before, findings text = before ++ [.oversize] ∧
      findings (text ++ bytes) =
        before ++ .frame (cut text).torn.dropLast :: (r.feed bytes).1 := by
  obtain ⟨hl, hr, hb⟩ := hp
  obtain ⟨rest, rfl⟩ := List.head?_eq_some_iff.mp hb
  have hlong : frameSize < (cut text).torn.length := hl ▸ Nat.lt_succ_self _
  refine ⟨(cut text).complete.filterMap classify, by rw [findings, if_pos hlong], ?_⟩
  have hend := findings_feed_end h (h.discarding_iff.mpr hlong) List.not_mem_nil rest
  rw [List.nil_append, List.append_nil, classify_of_parted hl hr] at hend
  exact hend

/-- What a reader finds in reads one after the other, and the reader after them. -/
def readAll (r : LineReader) : List Bytes → List Finding × LineReader
  | [] => ([], r)
  | bytes :: reads =>
    let after := (r.feed bytes).2.readAll reads
    ((r.feed bytes).1 ++ after.1, after.2)

theorem readAll_cons (r : LineReader) (bytes : Bytes) (reads : List Bytes) :
    r.readAll (bytes :: reads) =
      ((r.feed bytes).1 ++ ((r.feed bytes).2.readAll reads).1,
        ((r.feed bytes).2.readAll reads).2) := rfl

/-- Reads are read one after the other. -/
theorem readAll_append (r : LineReader) (reads more : List Bytes) :
    r.readAll (reads ++ more) =
      ((r.readAll reads).1 ++ ((r.readAll reads).2.readAll more).1,
        ((r.readAll reads).2.readAll more).2) := by
  induction reads generalizing r with
  | nil => rfl
  | cons bytes reads ih => rw [List.cons_append, readAll_cons, ih, readAll_cons, List.append_assoc]

/-- A run collects its findings in reverse, which comes to the same. -/
theorem run_eq_readAll (reads : List Bytes) : run reads = (readAll {} reads).1 := by
  have fold : ∀ (done : List (List Finding)) (r : LineReader),
      (reads.foldl (fun state bytes => ((state.2.feed bytes).1 :: state.1, (state.2.feed bytes).2))
        (done, r)).1.reverse.flatten = done.reverse.flatten ++ (r.readAll reads).1 := by
    induction reads with
    | nil => intro done r; exact (List.append_nil _).symm
    | cons bytes reads ih =>
        intro done r
        rw [List.foldl_cons, ih, List.reverse_cons, List.flatten_append, List.flatten_singleton,
          List.append_assoc, readAll_cons]
  exact fold [] {}

/-- After all reads the reader knows the line that the whole text breaks off in. -/
theorem Holds.readAll (h : r.Holds (cut text).torn) (reads : List Bytes) :
    (r.readAll reads).2.Holds (cut (text ++ reads.flatten)).torn := by
  induction reads generalizing r text with
  | nil => rwa [List.flatten_nil, List.append_nil]
  | cons bytes reads ih =>
      rw [List.flatten_cons, ← List.append_assoc]
      exact ih (h.feed bytes)

/-- Some read after a text ends between the carriage return and the line feed of a line that is the
largest frame and a carriage return. -/
def PartsEnding (text : Bytes) (reads : List Bytes) : Prop :=
  ∃ before after, reads = before ++ after ∧
    Parted (cut (text ++ before.flatten)).torn after.flatten

theorem not_partsEnding_nil : ¬ PartsEnding text [] := by
  rintro ⟨before, after, e, -, -, hb⟩
  rw [(List.append_eq_nil_iff.mp e.symm).2] at hb
  cases hb

/-- Some read parts an ending if the first one starts behind a carriage return that completes a
largest line, or a later one does. -/
theorem partsEnding_cons :
    PartsEnding text (bytes :: reads) ↔
      Parted (cut text).torn bytes ∨ PartsEnding (text ++ bytes) reads := by
  constructor
  · rintro ⟨before, after, e, hp⟩
    cases before with
    | nil =>
        rw [List.nil_append] at e
        subst e
        rw [List.flatten_nil, List.append_nil] at hp
        cases bytes with
        | nil => exact .inr ⟨[], reads, rfl, by simpa using hp⟩
        | cons b bytes => exact .inl hp
    | cons _ before =>
        obtain ⟨rfl, rfl⟩ := List.cons.inj e
        exact .inr ⟨before, after, rfl, by simpa using hp⟩
  · rintro (⟨hl, hr, hb⟩ | ⟨before, after, rfl, hp⟩)
    · refine ⟨[], bytes :: reads, rfl, by simpa using hl, by simpa using hr, ?_⟩
      rw [List.flatten_cons, List.head?_append, hb]
      rfl
    · exact ⟨bytes :: before, after, rfl, by simpa using hp⟩

/-- A text that is no longer than a frame has no ending to part. -/
theorem not_partsEnding_of_length_le (h : reads.flatten.length ≤ frameSize) :
    ¬ PartsEnding [] reads := by
  rintro ⟨before, after, rfl, hl, -⟩
  have hle := Lines.length_torn_le ([] ++ before.flatten)
  rw [List.flatten_append, List.length_append] at h
  rw [List.nil_append] at hl hle
  omega

/-- A text without a line feed has no ending to part. -/
theorem not_partsEnding_of_not_mem (h : lineFeed ∉ reads.flatten) : ¬ PartsEnding text reads := by
  rintro ⟨before, after, rfl, -, -, hb⟩
  obtain ⟨rest, e⟩ := List.head?_eq_some_iff.mp hb
  exact h (by rw [List.flatten_append, e]; simp)

/-- Reads add what they complete to the findings, unless one parts the end of a largest line. -/
theorem findings_readAll (h : r.Holds (cut text).torn) (hp : ¬ PartsEnding text reads) :
    findings (text ++ reads.flatten) = findings text ++ (r.readAll reads).1 := by
  induction reads generalizing r text with
  | nil => rw [List.flatten_nil, List.append_nil]; exact (List.append_nil _).symm
  | cons bytes reads ih =>
      obtain ⟨hb, hreads⟩ := not_or.mp (mt partsEnding_cons.mpr hp)
      rw [List.flatten_cons, ← List.append_assoc, ih (h.feed bytes) hreads, findings_feed h hb,
        readAll_cons, List.append_assoc]

/-- A read never finds fewer lines too long than the text holds, and more if it parts the end of a
largest line. -/
theorem count_findings_feed (h : r.Holds (cut text).torn) (bytes : Bytes) :
    (findings (text ++ bytes)).count .oversize ≤
        (findings text).count .oversize + (r.feed bytes).1.count .oversize ∧
      (Parted (cut text).torn bytes → (findings (text ++ bytes)).count .oversize <
        (findings text).count .oversize + (r.feed bytes).1.count .oversize) := by
  by_cases hp : Parted (cut text).torn bytes
  · obtain ⟨before, e, e'⟩ := findings_feed_parted h hp
    have hframe : Finding.frame (cut text).torn.dropLast ≠ .oversize := fun e => nomatch e
    have hone : [Finding.oversize].count .oversize = 1 := rfl
    have hlt : (findings (text ++ bytes)).count .oversize <
        (findings text).count .oversize + (r.feed bytes).1.count .oversize := by
      rw [e, e', List.count_append, List.count_append, List.count_cons_of_ne hframe, hone]
      omega
    exact ⟨Nat.le_of_lt hlt, fun _ => hlt⟩
  · rw [findings_feed h hp, List.count_append]
    exact ⟨Nat.le_refl _, fun hp' => absurd hp' hp⟩

/-- Reads never find fewer lines too long than the text holds, and more if they part the end of a
largest line. -/
theorem count_findings_readAll (h : r.Holds (cut text).torn) (reads : List Bytes) :
    (findings (text ++ reads.flatten)).count .oversize ≤
        (findings text).count .oversize + (r.readAll reads).1.count .oversize ∧
      (PartsEnding text reads → (findings (text ++ reads.flatten)).count .oversize <
        (findings text).count .oversize + (r.readAll reads).1.count .oversize) := by
  induction reads generalizing r text with
  | nil =>
      rw [List.flatten_nil, List.append_nil]
      exact ⟨Nat.le_refl _, fun hp => absurd hp not_partsEnding_nil⟩
  | cons bytes reads ih =>
      obtain ⟨hle, hlt⟩ := count_findings_feed h bytes
      obtain ⟨hle', hlt'⟩ := ih (h.feed bytes)
      rw [List.flatten_cons, ← List.append_assoc, readAll_cons, List.count_append]
      refine ⟨by omega, fun hp => ?_⟩
      rcases partsEnding_cons.mp hp with hb | hreads
      · have := hlt hb
        omega
      · have := hlt' hreads
        omega

/-- The reads of a stream come to the findings of its text exactly if none of them ends between the
carriage return and the line feed of a line that is the largest frame and a carriage return. -/
theorem run_eq_findings_iff : run reads = findings reads.flatten ↔ ¬ PartsEnding [] reads := by
  rw [run_eq_readAll]
  constructor
  · intro e hp
    have hlt := (count_findings_readAll holds_start reads).2 hp
    rw [List.nil_append, ← e] at hlt
    exact absurd hlt (by simp [findings, cut, Lines.cutOnto])
  · intro hp
    have e := findings_readAll holds_start hp
    rw [List.nil_append] at e
    exact e.symm

/-! ### A stream that comes all at once -/

/-- What a transport can give in one read. -/
def IsRead (bytes : Bytes) : Prop := bytes ≠ [] ∧ bytes.length ≤ readSize

/-- The first read is the beginning of the stream. -/
theorem isPrefix_firstRead (bytes : Bytes) : firstRead bytes <+: bytes := by
  rw [firstRead]
  split
  · exact (List.dropLast_prefix _).trans (List.take_prefix _ _)
  · exact List.take_prefix _ _

/-- The first read is one that a transport can give. -/
theorem isRead_firstRead (h : bytes ≠ []) : IsRead (firstRead bytes) := by
  refine ⟨firstRead_ne_nil h, ?_⟩
  have hread : (bytes.take readSize).length ≤ readSize := List.length_take_le _ _
  rw [firstRead]
  split
  · exact Nat.le_trans (List.dropLast_prefix _).length_le hread
  · exact hread

/-- No line feed comes right after a first read that ends in a carriage return. -/
theorem head?_drop_firstRead (h : (firstRead bytes).getLast? = some 0x0d) :
    (bytes.drop (firstRead bytes).length).head? ≠ some lineFeed := by
  obtain ⟨read, hread⟩ : ∃ read, read = bytes.take readSize := ⟨_, rfl⟩
  have hprefix : read <+: bytes := hread ▸ List.take_prefix _ _
  rw [firstRead, ← hread] at h ⊢
  split at h
  · -- the byte that is left for the next read is a carriage return
    rename_i hlast
    rw [if_pos hlast]
    obtain ⟨front, hfront⟩ := List.getLast?_eq_some_iff.mp hlast.2
    obtain ⟨rest, hrest⟩ := hprefix
    rw [← hrest, hfront, List.dropLast_concat, List.append_assoc, List.drop_left,
      List.singleton_append, List.head?_cons]
    decide
  · -- the read is no longer than this byte, so nothing comes after it
    rename_i hlast
    rw [if_neg hlast]
    have hshort : read.length ≤ 1 := Nat.not_lt.mp fun hlong => hlast ⟨hlong, h⟩
    have hall : bytes.length ≤ read.length := by
      rw [hread, List.length_take] at hshort ⊢
      have hsize : 1 < readSize := by decide
      omega
    rw [List.drop_of_length_le hall, List.head?_nil]
    exact (Option.some_ne_none _).symm

/-- The reads of a stream are the stream. -/
theorem flatten_reads (bytes : Bytes) : (LineReader.reads bytes).flatten = bytes := by
  fun_induction LineReader.reads bytes with
  | case1 => rfl
  | case2 bytes h ih =>
      rw [List.flatten_cons, ih, List.prefix_iff_eq_append.mp (isPrefix_firstRead bytes)]

/-- All reads are such that a transport can give. -/
theorem isRead_of_mem_reads (bytes : Bytes) : ∀ b ∈ LineReader.reads bytes, IsRead b := by
  fun_induction LineReader.reads bytes with
  | case1 => exact List.forall_mem_nil _
  | case2 bytes h ih => exact List.forall_mem_cons.mpr ⟨isRead_firstRead h, ih⟩

/-- No line feed comes right after reads that end in a carriage return. -/
theorem head?_of_reads {before after : List Bytes} (h : LineReader.reads bytes = before ++ after)
    (hr : before.flatten.getLast? = some 0x0d) : after.flatten.head? ≠ some lineFeed := by
  induction before generalizing bytes with
  | nil => cases hr
  | cons read before ih =>
      rw [LineReader.reads] at h
      split at h
      · cases h
      obtain ⟨rfl, hrest⟩ := List.cons.inj h
      rw [List.flatten_cons, List.getLast?_append] at hr
      cases hb : before.flatten.getLast? with
      | some b =>
          rw [hb, Option.some_or] at hr
          exact ih hrest (hb.trans hr)
      | none =>
          have hflat : before.flatten = [] := List.getLast?_eq_none_iff.mp hb
          have hafter : (before ++ after).flatten = after.flatten := by
            rw [List.flatten_append, hflat, List.nil_append]
          rw [hb, Option.none_or] at hr
          rw [← hafter, ← List.append_eq, ← hrest, flatten_reads]
          exact head?_drop_firstRead hr

/-- These reads never part the end of a largest line. -/
theorem not_partsEnding_reads (bytes : Bytes) : ¬ PartsEnding [] (LineReader.reads bytes) := by
  rintro ⟨before, after, h, -, hr, hb⟩
  refine head?_of_reads h ?_ hb
  rw [List.nil_append] at hr
  rw [← Lines.joined_complete before.flatten, List.getLast?_append, hr, Option.some_or]

/-- What is found in these reads is what the text holds. -/
theorem run_reads (bytes : Bytes) : run (LineReader.reads bytes) = findings bytes := by
  rw [run_eq_findings_iff.mpr (not_partsEnding_reads bytes), flatten_reads]

/-! ### The end of a largest line -/

/-- A largest frame is found if its carriage return and line feed come in one read, and is taken for
too long if they come in two. -/
theorem run_largest (hl : line.length = frameSize) (hc : lineFeed ∉ line)
    (hreads : reads.flatten = line) :
    run (reads ++ [[0x0d, lineFeed]]) = [.frame line] ∧
      run (reads ++ [[0x0d], [lineFeed]]) = [.oversize] := by
  have hcr : lineFeed ∉ line ++ [0x0d] := by
    rw [List.mem_append, List.mem_singleton]
    exact fun hm => hm.elim hc (by decide)
  have hlen : (line ++ [0x0d]).length = frameSize + 1 := by rw [List.length_append, hl]; rfl
  have hr : (line ++ [0x0d]).getLast? = some 0x0d := List.getLast?_concat
  have hholds : (readAll {} reads).2.Holds line := by
    have hstart : ({} : LineReader).Holds (cut []).torn := holds_start
    have h := hstart.readAll reads
    rwa [List.nil_append, hreads, Lines.cut_of_not_mem hc] at h
  -- a line that is just a frame is kept, so the next read is read together with it
  have hkeeps : (readAll {} reads).2.discarding = false := by
    rw [hholds.discarding, hl]
    exact decide_eq_false (Nat.lt_irrefl _)
  have hfound : (readAll {} reads).1 = [] := by
    have hp : ¬ PartsEnding [] reads := not_partsEnding_of_not_mem (hreads ▸ hc)
    have h := findings_readAll holds_start hp
    rw [List.nil_append, hreads, findings_of_not_mem hc, hl, if_neg (Nat.lt_irrefl _)] at h
    exact h.symm
  constructor
  · rw [run_eq_readAll, readAll_append, hfound, readAll_cons, feed_of_kept hholds hkeeps,
      (feed_start _).1, List.nil_append]
    have e : line ++ [0x0d, lineFeed] = (line ++ [0x0d]) ++ lineFeed :: [] := by
      rw [List.append_assoc]; rfl
    rw [e, findings_line hcr, classify_of_parted hlen hr, List.dropLast_concat]
    rfl
  · -- with its carriage return the line is too long, and the line feed only ends it
    have hpassing : ((readAll {} reads).2.feed [0x0d]).2.Holds (line ++ [0x0d]) := by
      have h := (feed_start (line ++ [0x0d])).2
      rwa [← feed_of_kept hholds hkeeps, Lines.cut_of_not_mem hcr] at h
    have hlong : frameSize < (line ++ [0x0d]).length := hlen ▸ Nat.lt_succ_self _
    have hend := feed_end hpassing (hpassing.discarding_iff.mpr hlong) List.not_mem_nil []
    have hfirst : ((readAll {} reads).2.feed [0x0d]).1 = [.oversize] := by
      rw [feed_of_kept hholds hkeeps, (feed_start _).1, findings_of_not_mem hcr, if_pos hlong]
    rw [List.nil_append] at hend
    rw [run_eq_readAll, readAll_append, hfound, readAll_cons, readAll_cons, hfirst, hend,
      (feed_start []).1]
    rfl

end FleetControl.LineReader
