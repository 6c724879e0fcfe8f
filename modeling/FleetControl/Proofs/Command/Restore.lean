import FleetControl.Proofs.Command.Journal
import FleetControl.Proofs.Command.Log
import FleetControl.Proofs.Page.Listing

/-!
# Restoring a log — what is left of it after a crash

A log that is restored from a journal is the one with the commands on its complete lines
(`restore_eq_ok_iff`); what keeps it from being restored is always a fault of the storage
(`fault_of_restore`).  Every save after that either changes nothing or adds a command to the log
and its line to the file (`Keeps.save`, `Keeps.saveAll`).  So a file that is broken off anywhere
holds a beginning of what was saved, and opening it restores that (`Reopens.of_prefix`).
-/

namespace FleetControl.CommandLog

open Journal (opened text Reads Writable found?)

variable {log log' : CommandLog} {cursor : Cursor} {path content : Bytes} {entry : Entry}
  {cs ds : List Command} {c : Command}

/-! ### Commands of a journal -/

/-- Puts a command that a journal holds into the log. -/
def add (log : CommandLog) (c : Command) : CommandLog :=
  { log.index c with latest := laterThan log.latest c.createdAt }

/-- The log that a journal with these commands gives. -/
def ofCommands (cursor : Cursor) (cs : List Command) : CommandLog := cs.foldl add { cursor }

/-- One more command is held after those there are. -/
theorem Holds.add (h : log.Holds cs) (c : Command) : (log.add c).Holds (cs ++ [c]) :=
  (h.index c).congr rfl rfl rfl

/-- Commands that are added one by one are all held. -/
theorem Holds.foldl_add (h : log.Holds cs) (ds : List Command) :
    (ds.foldl CommandLog.add log).Holds (cs ++ ds) := by
  induction ds generalizing log cs with
  | nil => rwa [List.append_nil]
  | cons d ds ih =>
      have hd := ih (h.add d)
      rwa [List.append_assoc] at hd

/-- The log of some commands holds them. -/
theorem holds_ofCommands (cursor : Cursor) (cs : List Command) : (ofCommands cursor cs).Holds cs :=
  (holds_nil cursor).foldl_add cs

/-- The log of one more command is the log of the others with it added. -/
theorem ofCommands_append (cursor : Cursor) (cs : List Command) (c : Command) :
    ofCommands cursor (cs ++ [c]) = (ofCommands cursor cs).add c := by
  rw [ofCommands, List.foldl_append]
  rfl

theorem ofCommands_cursor (cursor : Cursor) (cs : List Command) :
    (ofCommands cursor cs).cursor = cursor := by
  induction cs using List.reverseRecOn with
  | nil => rfl
  | append_singleton cs c ih => rw [ofCommands_append]; exact ih

/-- The log that a journal with these commands gives, open on a file. -/
def openOn (cursor : Cursor) (path content : Bytes) (cs : List Command) : CommandLog :=
  { ofCommands cursor cs with journal := some (opened path content) }

/-- The log that goes on from a journal holds the commands of the journal. -/
theorem holds_openOn (cursor : Cursor) (path content : Bytes) (cs : List Command) :
    (openOn cursor path content cs).Holds cs :=
  (holds_ofCommands cursor cs).congr rfl rfl rfl

/-- A log has a key if a command that it holds does. -/
theorem Holds.contains_iff (h : log.Holds cs) {key : Bytes} :
    log.ordered.contains key = true ↔ key ∈ cs.map Command.orderKey :=
  Table.contains_iff_of_find? h.ordered

/-- Restoring commands refuses just those lists in which a key comes twice. -/
theorem Holds.restoreAll_eq_ok_iff (h : log.Holds cs) (hn : (cs.map Command.orderKey).Nodup) :
    ds.foldlM restoreOne log = .ok log' ↔
      ((cs ++ ds).map Command.orderKey).Nodup ∧ log' = ds.foldl CommandLog.add log := by
  induction ds generalizing log cs with
  | nil =>
      rw [List.append_nil, List.foldlM_nil, List.foldl_nil]
      constructor
      · rintro ⟨⟩
        exact ⟨hn, rfl⟩
      · rintro ⟨-, rfl⟩
        rfl
  | cons d ds ih =>
      have hsplit : cs ++ d :: ds = (cs ++ [d]) ++ ds := by
        rw [List.append_assoc, List.singleton_append]
      rw [List.foldlM_cons, restoreOne, hsplit]
      by_cases hd : d.orderKey ∈ cs.map Command.orderKey
      · rw [if_pos (h.contains_iff.mpr hd)]
        constructor
        · intro he
          cases he
        · rintro ⟨hnodup, -⟩
          rw [List.map_append, List.map_append] at hnodup
          exact absurd rfl ((List.nodup_append.mp (List.nodup_append.mp hnodup).1).2.2 _ hd _
            List.mem_cons_self)
      · rw [if_neg fun hc => hd (h.contains_iff.mp hc)]
        exact ih (h.add d) ((nodup_map_append_singleton _).mpr ⟨hd, hn⟩)

/-- Commands can be restored just if their order keys are distinct, and come to their log. -/
theorem foldlM_restoreOne_iff :
    cs.foldlM restoreOne { cursor } = .ok log ↔
      (cs.map Command.orderKey).Nodup ∧ log = ofCommands cursor cs :=
  (holds_nil cursor).restoreAll_eq_ok_iff List.nodup_nil

/-- Adding commands fails for no other reason than a key that comes twice. -/
theorem restoreAll_eq_error {cause : Refusal} (h : cs.foldlM restoreOne log = .error cause) :
    ∃ id, cause = .duplicate id := by
  induction cs generalizing log with
  | nil => cases h
  | cons c cs ih =>
      rw [List.foldlM_cons, restoreOne] at h
      split at h
      · cases h
        exact ⟨c.id, rfl⟩
      · exact ih h

/-- Whatever keeps a journal from being restored is a fault of the storage. -/
theorem fault_of_restore {j : Journal} {cause : Refusal}
    (h : (restore cursor j).result = .error cause) : cause.fault.kind = .storage := by
  rw [restore] at h
  split at h
  · cases h
    rfl
  · split at h
    · rename_i hfold
      obtain ⟨id, rfl⟩ := restoreAll_eq_error hfold
      cases h
      rfl
    · simp only at h
      split at h
      · cases h
        rfl
      · cases h

/-- The log with the commands on the complete lines of a file, and its journal, which has the rest
cut off. -/
theorem restore_of_reads (hf : found? entry = some content)
    (hr : Reads (Lines.cut content).complete cs) (hn : (cs.map Command.orderKey).Nodup) :
    (restore cursor { path, entry }).result = .ok (openOn cursor path (Lines.whole content) cs) ∧
      (restore cursor { path, entry }).journal = opened path (Lines.whole content) := by
  obtain ⟨notices, hreplay⟩ := (Journal.replay_eq_ok_iff path hf).mpr hr
  obtain ⟨hresult, hjournal⟩ := Journal.resume_of_found path hf
  have hfold : cs.foldlM restoreOne { cursor } = .ok (ofCommands cursor cs) :=
    foldlM_restoreOne_iff.mpr ⟨hn, rfl⟩
  constructor
  · simp only [restore, hreplay, hfold, hresult, hjournal, openOn]
  · simp only [restore, hreplay, hfold, hresult, hjournal]

/-- What is restored, and from what. -/
theorem restore_eq_ok_iff : (restore cursor { path, entry }).result = .ok log ↔
    ∃ content cs, found? entry = some content ∧ Reads (Lines.cut content).complete cs ∧
      (cs.map Command.orderKey).Nodup ∧ log = openOn cursor path (Lines.whole content) cs := by
  constructor
  · intro h
    cases hf : found? entry with
    | none => cases entry <;> cases hf <;> cases h
    | some content =>
        cases hreplay : ({ path, entry } : Journal).replay with
        | error cause => simp only [restore, hreplay] at h; cases h
        | ok replay =>
            obtain ⟨cs, notices⟩ := replay
            have hr := (Journal.replay_eq_ok_iff path hf).mp ⟨notices, hreplay⟩
            cases hfold : cs.foldlM restoreOne { cursor } with
            | error cause => simp only [restore, hreplay, hfold] at h; cases h
            | ok log' =>
                obtain ⟨hn, -⟩ := foldlM_restoreOne_iff.mp hfold
                rw [(restore_of_reads hf hr hn).1] at h
                cases h
                exact ⟨content, cs, rfl, hr, hn, rfl⟩
  · rintro ⟨content, cs, hf, hr, hn, rfl⟩
    exact (restore_of_reads hf hr hn).1

/-- The lines of commands restore these, settled. -/
theorem restore_text (hw : Writable cs) (hn : (cs.map Command.orderKey).Nodup) (path : Bytes) :
    (restore cursor { path, entry := .file (text cs) }).result =
      .ok (openOn cursor path (text cs) (cs.map Command.settle)) := by
  have hcut : Lines.cut (text cs) = ⟨cs.map (·.toJson.write), []⟩ := by
    rw [← List.append_nil (text cs)]
    exact Lines.cut_join (Journal.clean_write cs) List.not_mem_nil
  have hwhole : Lines.whole (text cs) = text cs := by
    rw [Lines.whole_eq, hcut, text]
  have hreads : Reads (Lines.cut (text cs)).complete (cs.map Command.settle) :=
    hcut ▸ Journal.reads_write hw
  have hsettled : ((cs.map Command.settle).map Command.orderKey).Nodup := by
    rw [List.map_map]
    exact hn
  have hresult : (restore cursor { path, entry := .file (text cs) }).result =
      .ok (openOn cursor path (Lines.whole (text cs)) (cs.map Command.settle)) :=
    (restore_of_reads rfl hreads hsettled).1
  rwa [hwhole] at hresult

/-- A command to restart an instance, as it stands in a journal. -/
def restartOf (id target : Bytes) (createdAt : Instant) : Command :=
  ⟨id, .restart, target, .obj [], createdAt⟩

/-- A command without data has no number in it that could be lost. -/
theorem isLegible_restartOf (id target : Bytes) (createdAt : Instant) :
    (restartOf id target createdAt).data.IsLegible := fun _ hx => nomatch hx

/-- The log of a journal, at path j, with one command for instance i. -/
def oneCommand (createdAt : Instant) : CommandLog :=
  openOn .plain [0x6a] (text [restartOf [0x61] [0x69] createdAt])
    [restartOf [0x61] [0x69] createdAt]

theorem restore_oneCommand {createdAt : Instant}
    (ht : (restartOf [0x61] [0x69] createdAt).toJson.isText = true) :
    (restore .plain { path := [0x6a]
                      entry := .file (text [restartOf [0x61] [0x69] createdAt]) }).result =
      .ok (oneCommand createdAt) :=
  restore_text (List.forall_mem_singleton.mpr ⟨ht, isLegible_restartOf _ _ _⟩)
    (List.nodup_singleton _) _

/-! ### Saving with a journal -/

/-- The log is open on a file and holds these commands, no two of them with one key. -/
structure Keeps (log : CommandLog) (path content : Bytes) (cs : List Command) : Prop where
  journal : log.journal = some (opened path content)
  holds : log.Holds cs
  distinct : (cs.map Command.orderKey).Nodup

/-- A command under a new id has a new key. -/
theorem Keeps.append_distinct (h : log.Keeps path content cs)
    (hc : log.byId.get? c.id = none) : ((cs ++ [c]).map Command.orderKey).Nodup := by
  refine (nodup_map_append_singleton _).mpr ⟨fun hm => ?_, h.distinct⟩
  obtain ⟨a, ha, e⟩ := List.mem_map.mp hm
  exact h.holds.id_ne hc ha (Command.orderKey_inj.mp e).2

/-- One save: what it is given. -/
structure Attempt where
  ids : IdSource
  now : Instant
  /-- What the file can still grow by. -/
  room : Option ℕ
  request : Request

/-- What one attempt to save comes to. -/
def attempt (log : CommandLog) (a : Attempt) : Saved := log.save a.ids a.now a.room a.request

/-- Writing a command fails and leaves the log as it is, or adds the command's line to the file. -/
theorem record_of_opened (h : log.journal = some (opened path content)) (room : Option ℕ)
    (c : Command) :
    (∃ cause, log.record room c = (.error cause, log)) ∨
      c.toJson.isText = true ∧ log.record room c =
        (.ok (), { log with journal := some (opened path (content ++ text [c])) }) := by
  rw [record_of_journal h]
  obtain ⟨cause, happend⟩ | ⟨ht, happend⟩ := Journal.append_opened path content room c
  · refine .inl ⟨.notJournaled path cause, ?_⟩
    rw [happend, ← h]
    rfl
  · refine .inr ⟨ht, ?_⟩
    rw [happend]
    rfl

/-- A save changes nothing, or adds a command to the log and its line to the file. -/
theorem Keeps.save (h : log.Keeps path content cs) (a : Attempt) :
    (∃ cause, (log.attempt a).result = .error cause ∧ (log.attempt a).log = log) ∨
      ∃ c, log.IsNew a.now a.request c ∧ c.toJson.isText = true ∧
        (log.attempt a).result = .ok c ∧
        (log.attempt a).log = { log.index c with
          latest := some c.createdAt
          journal := some (opened path (content ++ text [c])) } := by
  obtain ⟨cause, hres, hlog⟩ | ⟨c, hc, hcase⟩ := save_cases log a.ids a.now a.room a.request
  · exact .inl ⟨cause, hres, hlog⟩
  · obtain ⟨cause, hrecord⟩ | ⟨ht, hrecord⟩ := record_of_opened h.journal a.room c
    · obtain ⟨cause', log', hr, hres, hlog⟩ | ⟨log', hr, -, -⟩ := hcase
      · cases hrecord.symm.trans hr
        exact .inl ⟨_, hres, hlog⟩
      · cases hrecord.symm.trans hr
    · obtain ⟨cause', log', hr, -, -⟩ | ⟨log', hr, hres, hlog⟩ := hcase
      · cases hrecord.symm.trans hr
      · cases hrecord.symm.trans hr
        exact .inr ⟨c, hc, ht, hres, hlog⟩

/-- What is left of a log after saves. -/
def saveAll (log : CommandLog) (as : List Attempt) : CommandLog :=
  as.foldl (fun log a => (log.attempt a).log) log

/-- What saves have saved, in order. -/
def savedBy (log : CommandLog) : List Attempt → List Command
  | [] => []
  | a :: as => (log.attempt a).result.toOption.toList ++ (log.attempt a).log.savedBy as

@[simp] theorem saveAll_nil (log : CommandLog) : log.saveAll [] = log := rfl

@[simp] theorem saveAll_cons (log : CommandLog) (a : Attempt) (as : List Attempt) :
    log.saveAll (a :: as) = (log.attempt a).log.saveAll as := rfl

/-- A command that is saved is the first of those that are. -/
theorem savedBy_of_ok {a : Attempt} (h : (log.attempt a).result = .ok c) (as : List Attempt) :
    log.savedBy (a :: as) = [c] ++ (log.attempt a).log.savedBy as := by
  rw [savedBy, h]
  rfl

/-- An attempt that is refused saves nothing. -/
theorem savedBy_of_error {a : Attempt} {cause : Refusal}
    (h : (log.attempt a).result = .error cause) (as : List Attempt) :
    log.savedBy (a :: as) = (log.attempt a).log.savedBy as := by
  rw [savedBy, h]
  rfl

/-- The doubles in what is to be saved read back from their texts. -/
def Legible (as : List Attempt) : Prop := ∀ a ∈ as, a.request.data.IsLegible

/-- The data of a new command is that of the request. -/
theorem IsNew.isLegible {now : Instant} {r : Request} (h : log.IsNew now r c)
    (hl : r.data.IsLegible) : c.data.IsLegible := by
  rw [h.made]
  simp only [Request.command]
  split
  · intro x hx
    cases hx
  · exact hl

/-- A log that keeps its commands in a file keeps one more by adding its line. -/
theorem Keeps.append (h : log.Keeps path content cs) {now : Instant} {r : Request}
    (hc : log.IsNew now r c) : Keeps { log.index c with
      latest := some c.createdAt
      journal := some (opened path (content ++ text [c])) } path (content ++ text [c])
        (cs ++ [c]) :=
  ⟨rfl, (h.holds.index c).congr rfl rfl rfl, h.append_distinct hc.unused⟩

/-- Along saves the log takes up the commands and the file their lines. -/
theorem Keeps.saves (h : log.Keeps path content cs) (as : List Attempt) :
    (log.saveAll as).Keeps path (content ++ text (log.savedBy as)) (cs ++ log.savedBy as) := by
  induction as generalizing log content cs with
  | nil =>
      rw [savedBy, Journal.text_nil, List.append_nil, List.append_nil]
      exact h
  | cons a as ih =>
      obtain ⟨cause, hres, hlog⟩ | ⟨c, hc, -, hres, hlog⟩ := h.save a
      · rw [saveAll_cons, savedBy_of_error hres, hlog]
        exact ih h
      · rw [saveAll_cons, savedBy_of_ok hres, hlog, Journal.text_append, ← List.append_assoc,
          ← List.append_assoc]
        exact ih (h.append hc)

/-- What is saved can be read back. -/
theorem Keeps.writable {as : List Attempt} (h : log.Keeps path content cs) (hl : Legible as) :
    Writable (log.savedBy as) := by
  induction as generalizing log content cs with
  | nil => exact fun _ hc => nomatch hc
  | cons a as ih =>
      obtain ⟨ha, has⟩ := List.forall_mem_cons.mp hl
      obtain ⟨cause, hres, hlog⟩ | ⟨c, hc, ht, hres, hlog⟩ := h.save a
      · rw [savedBy_of_error hres, hlog]
        exact ih h has
      · rw [savedBy_of_ok hres, hlog]
        exact List.forall_mem_cons.mpr ⟨⟨ht, hc.isLegible ha⟩, ih (h.append hc) has⟩

/-- Whatever is attempted, the file goes on with the lines of the commands that are saved. -/
theorem Keeps.saveAll {as : List Attempt} (h : log.Keeps path content cs) (hl : Legible as) :
    (log.saveAll as).Keeps path (content ++ text (log.savedBy as)) (cs ++ log.savedBy as) ∧
      Writable (log.savedBy as) :=
  ⟨h.saves as, h.writable hl⟩

/-! ### Opening again -/

/-- Opening a journal at a path restores this log.  It holds the commands `cs`, which are those on
the complete lines in their order, and the file is cut to `content`. -/
structure Reopens (cursor : Cursor) (path : Bytes) (entry : Entry) (log : CommandLog)
    (cs : List Command) (content : Bytes) : Prop where
  result : (restore cursor { path, entry }).result = .ok log
  replayed : ∃ notices, ({ path, entry } : Journal).replay = .ok ⟨cs, notices⟩
  holds : log.Holds cs
  journal : log.journal = some (opened path content)

/-- A journal whose complete lines are commands with distinct order keys can be opened again. -/
theorem reopens_of_reads (cursor : Cursor) (path : Bytes) {found : Bytes}
    (hf : found? entry = some found) (hr : Reads (Lines.cut found).complete cs)
    (hn : (cs.map Command.orderKey).Nodup) :
    Reopens cursor path entry (openOn cursor path (Lines.whole found) cs) cs
      (Lines.whole found) where
  result := (restore_of_reads hf hr hn).1
  replayed := (Journal.replay_eq_ok_iff path hf).mpr hr
  holds := holds_openOn cursor path _ cs
  journal := rfl

/-- The content of the file that the log is open on. -/
def file (log : CommandLog) : Bytes := (log.journal.bind Journal.content?).getD []

/-- The file of a log is what its journal holds. -/
theorem file_of_journal (h : log.journal = some (opened path content)) : log.file = content := by
  rw [file, h]
  rfl

/-- What is restored goes on from the complete lines of the journal. -/
theorem reopens_of_restore (h : (restore cursor { path, entry }).result = .ok log) :
    ∃ cs, Reopens cursor path entry log cs log.file := by
  obtain ⟨found, cs, hf, hr, hn, rfl⟩ := restore_eq_ok_iff.mp h
  exact ⟨cs, reopens_of_reads cursor path hf hr hn⟩

/-- A log that was restored is the one that its commands give, and stands on lines that read as
them. -/
theorem Reopens.base (h : Reopens cursor path entry log cs content) :
    ∃ base, Lines.Clean base ∧ Reads base cs ∧ content = Lines.join base ∧
      (cs.map Command.orderKey).Nodup ∧ log = openOn cursor path content cs := by
  obtain ⟨found, ds, hf, hr, hn, hlog⟩ := restore_eq_ok_iff.mp h.result
  obtain ⟨notices, hreplay⟩ := h.replayed
  obtain ⟨notices', hreplay'⟩ := (Journal.replay_eq_ok_iff path hf).mpr hr
  rw [hreplay'] at hreplay
  cases hreplay
  have hcontent : content = Lines.whole found := by
    have hfile := file_of_journal h.journal
    rw [hlog] at hfile
    exact hfile.symm
  rw [← hcontent] at hlog
  exact ⟨_, (Lines.cut_clean found).1, hr, hcontent.trans (Lines.whole_eq found), hn, hlog⟩

/-- A log that is opened again keeps its commands in the file. -/
theorem Reopens.keeps (h : Reopens cursor path entry log cs content) :
    log.Keeps path content cs := by
  obtain ⟨-, -, -, -, hn, -⟩ := h.base
  exact ⟨h.journal, h.holds, hn⟩

/-- A file that is broken off anywhere behind what was there at opening restores what was there and
a beginning of what was saved: the commands whose lines lie in the file as a whole. -/
theorem Reopens.of_prefix {start : Bytes} (h : Reopens cursor path entry log cs start)
    {as : List Attempt} (hl : Legible as) (hp : content <+: (log.saveAll as).file)
    (hlen : start.length ≤ content.length) :
    ∃ k ≤ (log.savedBy as).length,
      (∀ n ≤ (log.savedBy as).length,
        n ≤ k ↔ start ++ text ((log.savedBy as).take n) <+: content) ∧
      ∃ log', Reopens cursor path (.file content) log'
        (cs ++ ((log.savedBy as).take k).map Command.settle)
        (start ++ text ((log.savedBy as).take k)) := by
  obtain ⟨base, hb, hr, rfl, -, -⟩ := h.base
  obtain ⟨hkeeps', hw⟩ := h.keeps.saveAll hl
  rw [file_of_journal hkeeps'.journal] at hp
  obtain ⟨k, hk, hcount, hreads, hwhole⟩ := Journal.reads_of_prefix hb hr hw hp hlen
  -- the keys that are left are among those that were there, so none of them comes twice
  have hn : ((cs ++ ((log.savedBy as).take k).map Command.settle).map Command.orderKey).Nodup := by
    have hsub : (cs.map Command.orderKey ++ ((log.savedBy as).take k).map Command.orderKey).Sublist
        ((cs ++ log.savedBy as).map Command.orderKey) := by
      rw [List.map_append]
      exact ((List.take_sublist k _).map _).append_left _
    rw [List.map_append, List.map_map]
    exact hkeeps'.distinct.sublist hsub
  refine ⟨k, hk, hcount, ?_⟩
  rw [← hwhole]
  exact ⟨_, reopens_of_reads cursor path rfl hreads hn⟩

/-- Without a crash everything that was saved is restored. -/
theorem Reopens.saveAll (h : Reopens cursor path entry log cs content) {as : List Attempt}
    (hl : Legible as) : ∃ log', Reopens cursor path (.file (log.saveAll as).file) log'
      (cs ++ (log.savedBy as).map Command.settle) (log.saveAll as).file := by
  have hfile : (log.saveAll as).file = content ++ text (log.savedBy as) :=
    file_of_journal (h.keeps.saveAll hl).1.journal
  have hlen : content.length ≤ (log.saveAll as).file.length := by
    rw [hfile, List.length_append]
    exact Nat.le_add_right _ _
  obtain ⟨k, hk, hcount, log', hlog'⟩ := h.of_prefix hl List.prefix_rfl hlen
  have hall : k = (log.savedBy as).length := by
    have hend : content ++ text ((log.savedBy as).take (log.savedBy as).length) =
        (log.saveAll as).file := by rw [List.take_length, hfile]
    exact Nat.le_antisymm hk ((hcount _ (Nat.le_refl _)).mpr (hend ▸ List.prefix_rfl))
  rw [hall, List.take_length, ← hfile] at hlog'
  exact ⟨log', hlog'⟩

/-! ### Failing before the journal is opened -/

/-- Refusing what stands in a file leaves the file alone. -/
theorem restore_of_replay_error {j : Journal} {cause : Journal.Refusal}
    (h : j.replay = .error cause) :
    (∃ cause, (restore cursor j).result = .error cause) ∧ (restore cursor j).journal = j := by
  refine ⟨⟨.notJournaled j.path cause, ?_⟩, ?_⟩
  · simp only [restore, h]
  · simp only [restore, h]

/-- So does refusing a key that comes twice. -/
theorem restore_of_not_nodup {j : Journal} {replay : Journal.Replay}
    (h : j.replay = .ok replay) (hn : ¬ (replay.commands.map Command.orderKey).Nodup) :
    (∃ cause, (restore cursor j).result = .error cause) ∧ (restore cursor j).journal = j := by
  cases hfold : replay.commands.foldlM restoreOne { cursor } with
  | ok log => exact absurd (foldlM_restoreOne_iff.mp hfold).1 hn
  | error cause =>
      refine ⟨⟨cause, ?_⟩, ?_⟩
      · simp only [restore, h, hfold]
      · simp only [restore, h, hfold]

/-! ### Crashes -/

/-- A crash that breaks the journal's file off anywhere behind what was there at opening loses just
the commands whose lines are not whole.  The log can be opened again, holds what was there and the
commands whose lines lie in the file with their line feeds, has the file cut behind the last of
them, and saves on from there without losing or doubling anything.

Whatever stands in a file that can be replayed, opening cuts off just what was passed over, and a
file that is refused stays as it is. -/
theorem crash_keeps_whole_lines (h : (restore cursor { path, entry }).result = .ok log)
    {as : List Attempt} (hl : Legible as) (hp : content <+: (log.saveAll as).file)
    (hlen : log.file.length ≤ content.length) :
    let saved := log.savedBy as
    (∃ cs, Reopens cursor path entry log cs log.file ∧
      ∃ k ≤ saved.length,
        (∀ n ≤ saved.length, n ≤ k ↔ log.file ++ text (saved.take n) <+: content) ∧
      ∃ log', Reopens cursor path (.file content) log' (cs ++ (saved.take k).map Command.settle)
          (log.file ++ text (saved.take k)) ∧
        ∀ more, Legible more → ∃ log'',
          Reopens cursor path (.file (log'.saveAll more).file) log''
            (cs ++ (saved.take k).map Command.settle ++ (log'.savedBy more).map Command.settle)
            (log'.saveAll more).file) ∧
    (∀ path bytes replay, ({ path, entry := .file bytes } : Journal).replay = .ok replay →
      Reads (Lines.cut bytes).complete replay.commands ∧
        ({ path, entry := .file bytes } : Journal).resume.result = .ok () ∧
        ({ path, entry := .file bytes } : Journal).resume.journal =
          opened path (Lines.join (Lines.cut bytes).complete) ∧
        Lines.join (Lines.cut bytes).complete ++ (Lines.cut bytes).torn = bytes) ∧
    ∀ j : Journal, ((∃ cause, j.replay = .error cause) ∨ ∃ replay, j.replay = .ok replay ∧
        ¬ (replay.commands.map Command.orderKey).Nodup) →
      (∃ cause, (restore cursor j).result = .error cause) ∧ (restore cursor j).journal = j := by
  intro saved
  refine ⟨?_, fun path bytes replay => Journal.resume_of_replay, ?_⟩
  · obtain ⟨cs, hcs⟩ := reopens_of_restore h
    -- k counts the saved commands whose lines lie in the file with their line feeds
    obtain ⟨k, hk, hcount, log', hlog'⟩ := hcs.of_prefix hl hp hlen
    exact ⟨cs, hcs, k, hk, hcount, log', hlog', fun more hmore => hlog'.saveAll hmore⟩
  · rintro j (⟨cause, hj⟩ | ⟨replay, hj, hn⟩)
    · exact restore_of_replay_error hj
    · exact restore_of_not_nodup hj hn

/-- A log whose journal was just made, at path j. -/
def sample : CommandLog := openOn .plain [0x6a] [] []

/-- Two commands for instance i, with ids a and b, while the clock stands still. -/
def sampleAttempts : List Attempt :=
  [⟨{ idAt := fun _ => [0x61] }, 5, none, ⟨.restart, [0x69], .null⟩⟩,
    ⟨{ idAt := fun _ => [0x62] }, 5, none, ⟨.restart, [0x69], .null⟩⟩]

/-- A journal that is not there yet holds no commands. -/
theorem restore_sample : (restore .plain { path := [0x6a], entry := .nothing }).result =
    .ok sample := rfl

/-- The sample requests have no data. -/
theorem legible_sampleAttempts : Legible sampleAttempts := by
  intro a ha x hx
  have hdata : a.request.data = .null := by
    rcases List.mem_pair.mp ha with rfl | rfl <;> rfl
  rw [hdata] at hx
  cases hx

/-- A crash at the last byte of the second line loses the second command, and only that. -/
theorem crash_in_second_line :
    ∃ log', Reopens .plain [0x6a] (.file (sample.saveAll sampleAttempts).file.dropLast) log'
      ((sample.savedBy sampleAttempts).take 1) (text ((sample.savedBy sampleAttempts).take 1)) := by
  have hlen : sample.file.length ≤ (sample.saveAll sampleAttempts).file.dropLast.length :=
    Nat.zero_le _
  obtain ⟨⟨cs, hcs, k, hk, hcount, log', hlog', -⟩, -⟩ :=
    crash_keeps_whole_lines restore_sample legible_sampleAttempts (List.dropLast_prefix _) hlen
  obtain ⟨notices, hreplay⟩ := hcs.replayed
  cases hreplay
  have hone : 1 ≤ k := (hcount 1 (by decide +kernel)).mpr (by decide +kernel)
  have htwo : ¬ 2 ≤ k := fun h => absurd ((hcount 2 (by decide +kernel)).mp h) (by decide +kernel)
  obtain rfl : k = 1 := by omega
  exact ⟨log', hlog'⟩

end FleetControl.CommandLog
