import FleetControl.Proofs.Bytes.Lines
import FleetControl.Proofs.Command.Record

/-!
# The command journal — what opening and appending do to its file

A journal that is open on a file is `Journal.opened`.  Appending to it leaves it open, on the same
file or with one line more (`append_opened`): when the line does not get out as a whole, rolling back
cuts off what did (`rollBack_opened`).  Opening it again reads the complete lines
(`replay_eq_ok_iff`) and cuts off what is behind the last of them, which is just what the reading
passed over (`resume_of_replay`).  The lines of commands read back as the commands, settled
(`reads_write`), also where the file is broken off (`reads_of_prefix`).
-/

namespace FleetControl.Journal

variable {line : Bytes} {lines others : List Bytes} {cs ds : List Command} {c : Command}

/-! ### Lines -/

/-- Only refusals tell the number of a line. -/
theorem readLine_number {found : Option Command} {number : ℕ}
    (h : readLine line number = .ok found) (other : ℕ) : readLine line other = .ok found := by
  rw [readLine] at h ⊢
  split
  · rename_i he
    rwa [if_pos he] at h
  · rename_i he
    rw [if_neg he] at h
    cases hp : Json.parse? line with
    | none => rw [hp] at h; cases h
    | some j =>
        rw [hp] at h
        simp only at h ⊢
        cases hj : Command.ofJson j with
        | error cause => rw [hj] at h; cases h
        | ok c => rw [hj] at h; exact h

/-- These are the commands on the lines. -/
inductive Reads : List Bytes → List Command → Prop where
  | nil : Reads [] []
  | line {line : Bytes} {found : Option Command} {lines : List Bytes} {cs : List Command}
      (h : ∀ number, readLine line number = .ok found) (hr : Reads lines cs) :
      Reads (line :: lines) (found.toList ++ cs)

/-- What stands on lines that are numbered from somewhere on. -/
def foundFrom (lines : List Bytes) (number : ℕ) : Except Refusal (List (Option Command)) :=
  (lines.zipIdx number).mapM fun (line, number) => readLine line number

theorem foundFrom_cons (line : Bytes) (lines : List Bytes) (number : ℕ) :
    foundFrom (line :: lines) number = (do
      let found ← readLine line number
      let rest ← foundFrom lines (number + 1)
      return found :: rest) := by
  rw [foundFrom, List.zipIdx_cons, List.mapM_cons]
  rfl

theorem foundFrom_eq_ok_iff {number : ℕ} :
    (∃ found, foundFrom lines number = .ok found ∧ found.filterMap id = cs) ↔ Reads lines cs := by
  induction lines generalizing number cs with
  | nil =>
      constructor
      · rintro ⟨found, h, rfl⟩
        cases h
        exact .nil
      · rintro ⟨⟩
        exact ⟨[], rfl, rfl⟩
  | cons line lines ih =>
      rw [foundFrom_cons]
      constructor
      · rintro ⟨found, h, rfl⟩
        cases hl : readLine line number with
        | error cause => rw [hl] at h; cases h
        | ok first =>
            cases hr : foundFrom lines (number + 1) with
            | error cause => rw [hl, hr] at h; cases h
            | ok rest =>
                rw [hl, hr] at h
                cases h
                have hreads := Reads.line (readLine_number hl) (ih.mp ⟨rest, hr, rfl⟩)
                cases first <;> exact hreads
      · intro h
        cases h with
        | @line _ first _ cs' hl hr =>
            obtain ⟨rest, hrest, rfl⟩ := (@ih cs' (number + 1)).mpr hr
            refine ⟨first :: rest, ?_, ?_⟩
            · rw [hl number, hrest]; rfl
            · cases first <;> rfl

theorem readLines_eq_ok_iff : readLines lines = .ok cs ↔ Reads lines cs := by
  rw [← @foundFrom_eq_ok_iff _ _ 1]
  have h : readLines lines = (do
      let found ← foundFrom lines 1
      return found.filterMap id) := rfl
  rw [h]
  cases foundFrom lines 1 with
  | error cause =>
      constructor
      · intro h
        cases h
      · rintro ⟨_, h, _⟩
        cases h
  | ok found =>
      constructor
      · intro h
        cases h
        exact ⟨found, rfl, rfl⟩
      · rintro ⟨_, h, rfl⟩
        cases h
        rfl

theorem Reads.append (h : Reads lines cs) (h' : Reads others ds) :
    Reads (lines ++ others) (cs ++ ds) := by
  induction h with
  | nil => exact h'
  | line hl _ ih => rw [List.append_assoc]; exact .line hl ih

/-- The lines of commands, each with its line feed. -/
def text (cs : List Command) : Bytes := Lines.join (cs.map (·.toJson.write))

@[simp] theorem text_nil : text [] = [] := rfl

/-- The commands can be written, and what is written of them read. -/
def Writable (cs : List Command) : Prop := ∀ c ∈ cs, c.toJson.isText = true ∧ c.data.IsLegible

theorem reads_write (h : Writable cs) :
    Reads (cs.map (·.toJson.write)) (cs.map Command.settle) := by
  induction cs with
  | nil => exact .nil
  | cons c cs ih =>
      obtain ⟨⟨ht, hl⟩, hcs⟩ := List.forall_mem_cons.mp h
      exact .line (readLine_write ht hl) (ih hcs)

theorem clean_write (cs : List Command) : Lines.Clean (cs.map (·.toJson.write)) := by
  intro line hline
  obtain ⟨c, -, rfl⟩ := List.mem_map.mp hline
  exact lineFeed_not_mem_write c.toJson

theorem text_append (cs ds : List Command) : text (cs ++ ds) = text cs ++ text ds := by
  rw [text, List.map_append, Lines.join_append, text, text]

/-- A file that is broken off behind its first lines keeps those and, of the lines of commands, the
ones that lie in it as a whole. -/
theorem reads_of_prefix {base : List Bytes} {saved : List Command} {content : Bytes}
    (hb : Lines.Clean base) (hr : Reads base cs) (hw : Writable saved)
    (hp : content <+: Lines.join base ++ text saved)
    (hl : (Lines.join base).length ≤ content.length) :
    ∃ k ≤ saved.length,
      (∀ n ≤ saved.length, n ≤ k ↔ Lines.join base ++ text (saved.take n) <+: content) ∧
        Reads (Lines.cut content).complete (cs ++ (saved.take k).map Command.settle) ∧
        Lines.whole content = Lines.join base ++ text (saved.take k) := by
  obtain ⟨rest, rfl⟩ := List.prefix_of_prefix_length_le (List.prefix_append _ (text saved)) hp hl
  have hrest : rest <+: text saved := (List.prefix_append_right_inj _).mp hp
  have hclean := clean_write saved
  -- what is left behind the first lines has as many lines as there are commands left
  obtain ⟨k, hk⟩ : ∃ k, k = (Lines.cut rest).complete.length := ⟨_, rfl⟩
  have hprefix := Lines.complete_of_prefix hclean hrest
  have htake (n : ℕ) : text (saved.take n) = Lines.join ((saved.map (·.toJson.write)).take n) := by
    rw [text, List.map_take]
  have hcomplete : (Lines.cut rest).complete = (saved.take k).map (·.toJson.write) := by
    rw [List.map_take, hk]
    exact List.prefix_iff_eq_take.mp hprefix
  have hcut := Lines.cut_append hb rest
  refine ⟨k, ?_, fun n hn => ?_, ?_, ?_⟩
  · have hle := hprefix.length_le
    rwa [List.length_map, ← hk] at hle
  · rw [List.prefix_append_right_inj, htake, hk]
    exact Lines.le_length_complete_iff hclean hrest (by rwa [List.length_map])
  · rw [hcut, hcomplete]
    exact hr.append (reads_write fun c hc => hw c (List.mem_of_mem_take hc))
  · rw [Lines.whole_eq, hcut, hcomplete, Lines.join_append, text]

/-! ### Opening -/

/-- A journal that is open on a file. -/
def opened (path content : Bytes) : Journal :=
  { path, entry := .file content, handle := .held true false }

variable {path content : Bytes} {entry : Entry}

/-- What is found at a path that a journal can be opened on; nothing stands for an empty file. -/
def found? : Entry → Option Bytes
  | .file content => some content
  | .nothing => some []
  | .noParent | .directory => none

/-- A replay reads the complete lines. -/
theorem replay_eq_ok_iff (path : Bytes) (h : found? entry = some content) :
    (∃ notices, ({ path, entry } : Journal).replay = .ok ⟨cs, notices⟩) ↔
      Reads (Lines.cut content).complete cs := by
  cases entry with
  | noParent | directory => cases h
  | nothing =>
      cases h
      constructor
      · rintro ⟨notices, h⟩
        cases h
        exact .nil
      · rintro ⟨⟩
        exact ⟨[], rfl⟩
  | file content =>
      cases h
      rw [← readLines_eq_ok_iff]
      cases hr : readLines (Lines.cut content).complete with
      | error cause =>
          constructor
          · rintro ⟨notices, h⟩
            simp only [replay, hr] at h
            cases h
          · intro h
            cases h
      | ok found =>
          constructor
          · rintro ⟨notices, h⟩
            simp only [replay, hr] at h
            cases h
            rfl
          · intro h
            cases h
            simp only [replay, hr]
            exact ⟨_, rfl⟩

/-- Opening cuts the file behind its last line feed. -/
theorem resume_of_found (path : Bytes) (h : found? entry = some content) :
    ({ path, entry } : Journal).resume.result = .ok () ∧
      ({ path, entry } : Journal).resume.journal = opened path (Lines.whole content) := by
  cases entry with
  | noParent | directory => cases h
  | nothing => cases h; exact ⟨rfl, rfl⟩
  | file content =>
      cases h
      simp only [resume]
      split <;> exact ⟨rfl, rfl⟩

/-- A journal that holds its file cannot be opened again. -/
theorem resume_of_held {journal : Journal} {attached stuck : Bool}
    (h : journal.handle = .held attached stuck) :
    ∃ cause, journal.resume.result = .error cause := by
  cases he : journal.entry with
  | directory => exact ⟨.noSize .isDirectory, by simp only [resume, he]⟩
  | nothing | noParent => exact ⟨.notOpened, by simp only [resume, hold, he, h]⟩
  | file content =>
      refine ⟨.notOpened, ?_⟩
      simp only [resume, hold, he, h]
      split <;> rfl

/-- If the lines can be replayed, opening cuts off what the replay passed over, and nothing else. -/
theorem resume_of_replay {replay : Replay}
    (h : ({ path, entry := .file content } : Journal).replay = .ok replay) :
    Reads (Lines.cut content).complete replay.commands ∧
      ({ path, entry := .file content } : Journal).resume.result = .ok () ∧
      ({ path, entry := .file content } : Journal).resume.journal =
        opened path (Lines.join (Lines.cut content).complete) ∧
      Lines.join (Lines.cut content).complete ++ (Lines.cut content).torn = content := by
  obtain ⟨hresult, hjournal⟩ := @resume_of_found content (.file content) path rfl
  refine ⟨(replay_eq_ok_iff path rfl).mp ⟨replay.notices, h⟩, hresult, ?_,
    Lines.joined_complete content⟩
  rw [hjournal, Lines.whole_eq]

/-! ### Appending -/

/-- Rolling back cuts off whatever stands behind what the file held. -/
theorem rollBack_opened (path content more : Bytes) :
    (opened path (content ++ more)).rollBack content.length = opened path content := by
  simp only [rollBack, opened, List.take_left]

theorem text_singleton (c : Command) : text [c] = c.toJson.write ++ [Lines.lineFeed] := by
  simp [text, Lines.join]

section Append

variable {room : Option ℕ}

theorem append_of_not_text (ht : c.toJson.isText = false) :
    (opened path content).append room c = (.error .notText, opened path content) := by
  have hline : line? c = none := by
    rw [line?, Json.write?, ht]
    rfl
  simp only [append, opened, hline]

/-- Where there is no room for the whole line, what got out of it is cut off again. -/
theorem append_of_stopped {n : ℕ} (ht : c.toJson.isText = true) (hn : n < (text [c]).length) :
    (opened path content).append (some n) c = (.error .notWritten, opened path content) := by
  have hline : line? c = some (text [c]) := line?_eq_some.mpr ⟨ht, text_singleton c⟩
  have hout : (taken (some n) (text [c])).length ≠ (text [c]).length := by
    rw [taken, List.length_take]
    omega
  rw [← rollBack_opened path content (taken (some n) (text [c]))]
  simp only [append, opened, hline, hout, Bool.false_eq_true, if_false, if_true, rollBack,
    List.take_left]

theorem append_of_room (ht : c.toJson.isText = true)
    (hroom : ∀ n, room = some n → (text [c]).length ≤ n) :
    (opened path content).append room c = (.ok (), opened path (content ++ text [c])) := by
  have hline : line? c = some (text [c]) := line?_eq_some.mpr ⟨ht, text_singleton c⟩
  have hall : taken room (text [c]) = text [c] := by
    cases room with
    | none => rfl
    | some n => exact List.take_of_length_le (hroom n rfl)
  simp only [append, opened, hline, hall, Bool.false_eq_true, if_false, if_true]

/-- An append fails only at what is no text, or where there is no room for the whole line. -/
theorem append_error {cause : Refusal}
    (h : ((opened path content).append room c).1 = .error cause) :
    c.toJson.isText = false ∧ cause = .notText ∨
      c.toJson.isText = true ∧ cause = .notWritten ∧ ∃ n, room = some n ∧ n < (text [c]).length := by
  cases ht : c.toJson.isText with
  | false =>
      rw [append_of_not_text ht] at h
      cases h
      exact .inl ⟨rfl, rfl⟩
  | true =>
      by_cases hroom : ∀ n, room = some n → (text [c]).length ≤ n
      · rw [append_of_room ht hroom] at h
        cases h
      · push Not at hroom
        obtain ⟨n, rfl, hn⟩ := hroom
        rw [append_of_stopped ht hn] at h
        cases h
        exact .inr ⟨rfl, rfl, n, rfl, hn⟩

/-- An append fails and leaves the file as it is, or adds the line of the command. -/
theorem append_opened (path content : Bytes) (room : Option ℕ) (c : Command) :
    (∃ cause, (opened path content).append room c = (.error cause, opened path content)) ∨
      c.toJson.isText = true ∧
        (opened path content).append room c = (.ok (), opened path (content ++ text [c])) := by
  cases ht : c.toJson.isText with
  | false => exact .inl ⟨_, append_of_not_text ht⟩
  | true =>
      by_cases hroom : ∀ n, room = some n → (text [c]).length ≤ n
      · exact .inr ⟨rfl, append_of_room ht hroom⟩
      · push Not at hroom
        obtain ⟨n, rfl, hn⟩ := hroom
        exact .inl ⟨_, append_of_stopped ht hn⟩

end Append

end FleetControl.Journal
