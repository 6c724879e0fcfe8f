import FleetControl.Proofs.Session.Answering

/-!
# Scanning — the search that goes on where the last one ended

A reader does not search its whole buffer for a line feed: it goes on from a place before which there
is none.  This is right as long as every change of the buffer keeps that place right, so the searches
are looked at one by one.  `Search` is what holds whenever a reader searches, `Waits` is what holds
whenever it waits for the next read, and `Searches` goes from one search of a read to the next, the
way the reader does (`Searches.feed_eq`).

A read that is added to a waiting reader starts the first search (`Waits.search`), a search that
takes a line leads to the next (`Search.next`), and the read ends in a reader that waits again
(`waits_readAll`).  So in every stream the buffer holds no more than a frame and a read, and a line
is passed over only if more of it than a frame has come and has been answered (`scanning_sound`).
-/

namespace FleetControl.LineReader

open Lines (lineFeed cut)

variable {r start : LineReader} {buffer : Array UInt8} {text bytes : Bytes} {i : Nat}
  {reads : List Bytes}

/-! ### One search -/

/-- A search from where there is no line feed before comes to the first one of the whole buffer. -/
theorem lineFeedFrom_eq_idxOf? (hi : lineFeed ∉ buffer.toList.take i) :
    (lineFeedFrom buffer i).map Fin.val = buffer.toList.idxOf? lineFeed := by
  cases h : lineFeedFrom buffer i with
  | none => exact (List.idxOf?_eq_none_iff.mpr (lineFeedFrom_none h hi)).symm
  | some j =>
      obtain ⟨hclean, hj⟩ := lineFeedFrom_some h hi
      have hlt : (j : Nat) < buffer.toList.length := by rw [Array.length_toList]; exact j.isLt
      refine (List.findIdx?_eq_some_iff_getElem.mpr ⟨hlt, ?_, fun k hk => ?_⟩).symm
      · rw [Array.getElem_toList]
        exact beq_iff_eq.mpr hj
      · have hlast : k < buffer.toList.length := hk.trans hlt
        have hmem : buffer.toList[k] ∈ buffer.toList.take j :=
          List.mem_take_iff_getElem.mpr ⟨k, lt_min hk hlast, rfl⟩
        exact fun e => hclean (beq_iff_eq.mp e ▸ hmem)

/-- A reader with the bytes of a read, in front of its first search. -/
def receive (r : LineReader) (bytes : Bytes) : LineReader :=
  { r with buffer := r.buffer ++ bytes.toArray }

/-- How a read ends once the complete lines are taken. -/
def ends (drained : List Finding × LineReader) : List Finding × LineReader :=
  let (found, r) := shed drained.1 drained.2
  (found.reverse, r)

/-- What holds whenever a reader that got a read searches its buffer. -/
structure Search (start r : LineReader) : Prop where
  clean : lineFeed ∉ r.buffer.toList.take r.scanFrom
  bounded : r.buffer.size ≤ frameSize + readSize
  /-- A line can only be passed over in the first search: no line feed has come since. -/
  discarding : r.discarding = true → r = start

/-- The searches of a read: the first one, and after every line that is taken one more behind it. -/
inductive Searches (start : LineReader) : LineReader → Prop where
  | first : Searches start start
  | next {r : LineReader} {i : Fin r.buffer.size} (hr : Searches start r)
      (hi : lineFeedFrom r.buffer r.scanFrom = some i) :
      Searches start { buffer := r.buffer.extract (i + 1) r.buffer.size }

/-- A read goes on from each of its searches, with what was found before. -/
theorem Searches.feed_eq (h : Searches (start.receive bytes) r) :
    ∃ found, start.feed bytes = ends (r.drain found) := by
  induction h with
  | first => exact ⟨[], rfl⟩
  | @next r i hr hi ih =>
      obtain ⟨found, h⟩ := ih
      rw [h, drain, hi]
      dsimp only
      split
      · exact ⟨_, rfl⟩
      · exact ⟨_, rfl⟩

theorem Search.next (h : Search start r) (i : Fin r.buffer.size) :
    Search start { buffer := r.buffer.extract (i + 1) r.buffer.size } where
  clean := List.not_mem_nil
  bounded := by
    rw [Array.size_extract]
    exact (Nat.sub_le _ _).trans ((Nat.min_le_right _ _).trans h.bounded)
  discarding := nofun

theorem Searches.search (h : Searches start r) (hs : Search start start) : Search start r := by
  induction h with
  | first => exact hs
  | @next r i _ _ ih => exact ih.next i

/-! ### From read to read -/

/-- What holds of a reader that waits for the next read, after a text in which it found
something. -/
structure Waits (text : Bytes) (found : List Finding) (r : LineReader) : Prop where
  clean : lineFeed ∉ r.buffer.toList
  bounded : r.buffer.size ≤ frameSize
  scanned : r.scanFrom = r.buffer.size
  discarding_iff : r.discarding = true ↔ frameSize < (cut text).torn.length
  /-- Each line that is complete and not blank was found once, and so was the one that is passed
  over. -/
  found_once : ∃ inLines, List.Forall₂ Finds (nonblank (cut text).complete) inLines ∧
    found = inLines ++ if r.discarding then [.oversize] else []

theorem Holds.waits (h : r.Holds (cut text).torn) {found : List Finding} (hf : Found text found) :
    Waits text found r := by
  obtain ⟨inLines, hlines, hfound⟩ := hf
  refine ⟨h.clean, h.bounded, h.scanned, h.discarding_iff, inLines, hlines, ?_⟩
  rw [hfound, h.discarding]
  simp only [decide_eq_true_eq]

theorem Waits.search {found : List Finding} (h : Waits text found r)
    (hb : bytes.length ≤ readSize) : Search (r.receive bytes) (r.receive bytes) where
  clean := by
    rw [receive, h.scanned, ← Array.length_toList, Array.toList_append, List.take_left]
    exact h.clean
  bounded := by
    rw [receive, Array.size_append, List.size_toArray]
    exact Nat.add_le_add h.bounded hb
  discarding := fun _ => rfl

theorem waits_readAll (reads : List Bytes) :
    Waits reads.flatten (run reads) (readAll {} reads).2 := by
  have hstart : ({} : LineReader).Holds (cut []).torn := holds_start
  have hholds := hstart.readAll reads
  rw [List.nil_append] at hholds
  exact hholds.waits (found_run reads)

/-- However a stream is cut into reads, before each read the buffer holds no line feed, is searched
up to its end and is no larger than a frame; and at each search within a read there is no line feed
before the place it starts from, so it comes to the first one of the whole buffer if there is one,
which never holds more than a frame and a read.  A line is passed over only if more of it than a
frame came before this read, which was answered once, and no line feed of this read was taken. -/
theorem scanning_sound (hreads : ∀ bytes ∈ reads, bytes.length ≤ readSize) :
    (∀ before, before <+: reads →
      Waits before.flatten (run before) (readAll {} before).2) ∧
    ∀ before bytes, before ++ [bytes] <+: reads →
      ∀ r, Searches ((readAll {} before).2.receive bytes) r →
        (∃ found, (readAll {} before).2.feed bytes = ends (r.drain found)) ∧
        lineFeed ∉ r.buffer.toList.take r.scanFrom ∧
        (lineFeedFrom r.buffer r.scanFrom).map Fin.val = r.buffer.toList.idxOf? lineFeed ∧
        r.buffer.size ≤ frameSize + readSize ∧
        (r.discarding = true →
          r = (readAll {} before).2.receive bytes ∧
          frameSize < (cut before.flatten).torn.length ∧
          ∃ inLines, List.Forall₂ Finds (nonblank (cut before.flatten).complete) inLines ∧
            run before = inLines ++ [.oversize]) := by
  refine ⟨fun before _ => waits_readAll before, fun before bytes hp r hr => ?_⟩
  have hwaits := waits_readAll before
  have hlength : bytes.length ≤ readSize :=
    hreads bytes (hp.subset (List.mem_append_right _ List.mem_cons_self))
  have hsearch : Search ((readAll {} before).2.receive bytes) r :=
    hr.search (hwaits.search hlength)
  refine ⟨hr.feed_eq, hsearch.clean, lineFeedFrom_eq_idxOf? hsearch.clean, hsearch.bounded,
    fun hd => ?_⟩
  have hfirst := hsearch.discarding hd
  have hdiscarding : (readAll {} before).2.discarding = true := by
    rwa [hfirst] at hd
  obtain ⟨inLines, hlines, hfound⟩ := hwaits.found_once
  rw [if_pos hdiscarding] at hfound
  exact ⟨hfirst, hwaits.discarding_iff.mp hdiscarding, inLines, hlines, hfound⟩

/-- One byte more than a frame, and no line feed. -/
theorem scanning_of_long_line :
    let reads := LineReader.reads (List.replicate (frameSize + 1) 0x61)
    (∀ bytes ∈ reads, bytes.length ≤ readSize) ∧
      (readAll {} reads).2.discarding = true ∧ run reads = [.oversize] := by
  intro reads
  have hreads : ∀ bytes ∈ reads, bytes.length ≤ readSize := fun bytes hb =>
    (isRead_of_mem_reads _ bytes hb).2
  have hnone : lineFeed ∉ List.replicate (frameSize + 1) (0x61 : UInt8) := fun hm =>
    absurd (List.eq_of_mem_replicate hm) (by decide)
  have hcut : cut reads.flatten = ⟨[], List.replicate (frameSize + 1) 0x61⟩ := by
    rw [flatten_reads, Lines.cut_of_not_mem hnone]
  have hwaits := (scanning_sound hreads).1 reads (List.prefix_refl _)
  have hlong : frameSize < (cut reads.flatten).torn.length := by
    rw [hcut, List.length_replicate]
    exact Nat.lt_succ_self _
  have hdiscarding := hwaits.discarding_iff.mpr hlong
  obtain ⟨inLines, hlines, hfound⟩ := hwaits.found_once
  rw [hcut] at hlines
  cases hlines
  rw [if_pos hdiscarding] at hfound
  exact ⟨hreads, hdiscarding, hfound⟩

end FleetControl.LineReader
