import FleetControl.Proofs.Command.Audit

/-!
# Failed saves — nothing is left of them

A save may fail at the request, at the ids or at the journal (`Refuses`), and there also when a part
of the line is in the file already: what got out is cut off again, whatever it is
(`Journal.rollBack_opened`).  The journal of a log is open on its file all the time
(`Reachable.isOpen`), so after a failed save the log is what it was, and a run of saves comes to what
those in it come to that do not fail (`failed_save_changes_nothing`).  Only ids stay drawn.
-/

namespace FleetControl

/-! ### Ids that were drawn -/

theorem IdSource.allocate_drawn (isTaken : Bytes → Bool) (tries : ℕ) (ids : IdSource) :
    ∃ k ≤ tries, (ids.allocate isTaken tries).2 = { ids with drawn := ids.drawn + k } := by
  induction tries generalizing ids with
  | zero => exact ⟨0, Nat.le_refl 0, rfl⟩
  | succ tries ih =>
      simp only [allocate]
      split
      · obtain ⟨k, hk, h⟩ := ih ids.draw.2
        refine ⟨k + 1, Nat.succ_le_succ hk, h.trans ?_⟩
        rw [draw, Nat.add_assoc, Nat.add_comm 1 k]
      · exact ⟨1, Nat.succ_pos tries, rfl⟩

namespace CommandLog

open Journal (opened text)

variable {log : CommandLog} {cursor : Cursor} {shards : ℕ} {path content : Bytes} {c : Command}
  {a : Attempt} {as : List Attempt} {cause : Refusal}

/-! ### Logs that a program comes by -/

/-- A log that was set up or restored, and what saves make of it. -/
inductive Reachable : CommandLog → Prop where
  | setup {log : CommandLog} {cursor : Cursor} {shards : ℕ}
      (h : CommandLog.setup cursor shards = .ok log) : Reachable log
  | restored {log : CommandLog} {cursor : Cursor} {journal : Journal}
      (h : (CommandLog.restore cursor journal).result = .ok log) : Reachable log
  | attempt {log : CommandLog} (h : Reachable log) (a : Attempt) : Reachable (log.attempt a).log

/-- The journal, if there is one, is open on its file. -/
def IsOpen (log : CommandLog) : Prop :=
  ∀ journal, log.journal = some journal → ∃ path content, journal = opened path content

theorem isOpen_of_none (h : log.journal = none) : log.IsOpen := by
  intro journal hj
  rw [h] at hj
  cases hj

theorem isOpen_of_opened (h : log.journal = some (opened path content)) : log.IsOpen := by
  intro journal hj
  rw [h] at hj
  cases hj
  exact ⟨path, content, rfl⟩

/-- Only a journal that is not open is restored. -/
theorem closed_of_restore {journal : Journal} (h : (restore cursor journal).result = .ok log) :
    journal.handle = .closed := by
  cases hh : journal.handle with
  | closed => rfl
  | held attached stuck =>
      obtain ⟨cause, hresume⟩ := Journal.resume_of_held hh
      rw [restore] at h
      split at h
      · cases h
      · split at h
        · cases h
        · simp only [hresume] at h
          cases h

/-- Writing a command fails and leaves the log as it is, or changes the journal only. -/
theorem IsOpen.record (h : log.IsOpen) (room : Option ℕ) (c : Command) :
    (∃ cause, log.record room c = (.error cause, log)) ∨
      ∃ log', log.record room c = (.ok (), log') ∧ log'.IsOpen := by
  cases hj : log.journal with
  | none => exact .inr ⟨log, record_of_unjournaled hj room c, h⟩
  | some journal =>
      obtain ⟨path, content, rfl⟩ := h journal hj
      exact (record_of_opened hj room c).imp id fun ⟨_, hrecord⟩ =>
        ⟨_, hrecord, isOpen_of_opened rfl⟩

/-- A save fails and leaves the log as it is, or its journal open. -/
theorem IsOpen.attempt (h : log.IsOpen) (a : Attempt) :
    (∃ cause, (log.attempt a).result = .error cause ∧ (log.attempt a).log = log) ∨
      ∃ c, (log.attempt a).result = .ok c ∧ (log.attempt a).log.IsOpen := by
  obtain ⟨cause, hres, hlog⟩ | ⟨c, -, hcase⟩ := save_cases log a.ids a.now a.room a.request
  · exact .inl ⟨cause, hres, hlog⟩
  · obtain ⟨cause, hrecord⟩ | ⟨log', hrecord, hopen⟩ := h.record a.room c
    · obtain ⟨cause', log', hr, hres, hlog⟩ | ⟨log', hr, -, -⟩ := hcase
      · cases hrecord.symm.trans hr
        exact .inl ⟨cause, hres, hlog⟩
      · cases hrecord.symm.trans hr
    · obtain ⟨cause', log'', hr, -, -⟩ | ⟨log'', hr, hres, hlog⟩ := hcase
      · cases hrecord.symm.trans hr
      · cases hrecord.symm.trans hr
        refine .inr ⟨c, hres, ?_⟩
        rw [show (log.attempt a).log = _ from hlog]
        exact hopen

theorem Reachable.isOpen (h : log.Reachable) : log.IsOpen := by
  induction h with
  | setup h => exact isOpen_of_none (records_of_setup h).2
  | @restored log cursor journal h =>
      obtain ⟨path, entry, handle⟩ := journal
      obtain rfl : handle = .closed := closed_of_restore h
      obtain ⟨cs, hcs⟩ := reopens_of_restore h
      exact isOpen_of_opened hcs.journal
  | attempt _ a ih =>
      obtain ⟨-, -, hlog⟩ | ⟨-, -, hopen⟩ := ih.attempt a
      · rwa [hlog]
      · exact hopen

/-! ### Why saves fail -/

/-- Why a save fails: at the request, at the ids, or at the journal, before the line of the command
is written or within it. -/
inductive Refuses (log : CommandLog) (a : Attempt) : Refusal → Prop where
  | noTarget (htarget : a.request.target = []) : Refuses log a (.badCommand .noTarget)
  | dataNotObject (htarget : a.request.target ≠ [])
      (hdata : (a.request.data.isNull || a.request.data.isObject) = false) :
      Refuses log a (.badCommand .dataNotObject)
  | dataNotText (htarget : a.request.target ≠ [])
      (hdata : (a.request.data.isNull || a.request.data.isObject) = true)
      (htext : a.request.data.isText = false) : Refuses log a (.badCommand .dataNotText)
  | noFreeId (hcheck : a.request.check = .ok ())
      (hids : ∀ n < idTries, a.ids.upcoming n = [] ∨ log.byId.contains (a.ids.upcoming n) = true) :
      Refuses log a .noFreeId
  | notText {path content : Bytes} {c : Command} (hcheck : a.request.check = .ok ())
      (hc : log.next? a = some c) (hj : log.journal = some (opened path content))
      (htext : c.toJson.isText = false) : Refuses log a (.notJournaled path .notText)
  | stopped {path content : Bytes} {c : Command} {n : ℕ} (hcheck : a.request.check = .ok ())
      (hc : log.next? a = some c) (hj : log.journal = some (opened path content))
      (htext : c.toJson.isText = true) (hroom : a.room = some n) (hn : n < (text [c]).length) :
      Refuses log a (.notJournaled path .notWritten)

theorem check_eq_error_iff (log : CommandLog) {cause : Command.Refusal} :
    a.request.check = .error cause ↔ log.Refuses a (.badCommand cause) := by
  have hdata : (!a.request.data.isNull && !a.request.data.isObject) =
      !(a.request.data.isNull || a.request.data.isObject) := (Bool.not_or _ _).symm
  rw [Request.check, Command.checkData, hdata]
  constructor
  · intro h
    split at h
    · rename_i htarget
      cases h
      exact .noTarget (List.isEmpty_iff.mp htarget)
    · rename_i htarget
      rw [List.isEmpty_iff] at htarget
      cases hd : a.request.data.isNull || a.request.data.isObject with
      | false =>
          rw [hd] at h
          cases h
          exact .dataNotObject htarget hd
      | true =>
          cases ht : a.request.data.isText with
          | false =>
              rw [hd, ht] at h
              cases h
              exact .dataNotText htarget hd ht
          | true =>
              rw [hd, ht] at h
              cases h
  · rintro (htarget | ⟨htarget, hd⟩ | ⟨htarget, hd, ht⟩)
    · rw [htarget]
      rfl
    · rw [if_neg (by rwa [List.isEmpty_iff]), hd]
      rfl
    · rw [if_neg (by rwa [List.isEmpty_iff]), hd, ht]
      rfl

/-- What the journal answers is answered for the save. -/
theorem result_of_journal (hcheck : a.request.check = .ok ()) (hc : log.next? a = some c)
    (hj : log.journal = some (opened path content)) : (log.attempt a).result =
      (((opened path content).append a.room c).1.mapError (.notJournaled path)).map fun _ => c := by
  rw [result_of_next hcheck hc, record_of_journal hj]
  rfl

/-- A save fails for no other reason. -/
theorem IsOpen.refuses_of_error (h : log.IsOpen) (hres : (log.attempt a).result = .error cause) :
    log.Refuses a cause := by
  cases hcheck : a.request.check with
  | error cause =>
      cases (result_of_check hcheck).symm.trans hres
      exact (check_eq_error_iff log).mp hcheck
  | ok _ =>
      cases hnext : log.next? a with
      | none =>
          have hids := Option.map_eq_none_iff.mp hnext
          cases (attempt_of_no_id hcheck hids).1.symm.trans hres
          exact .noFreeId hcheck (IdSource.allocate_eq_none_iff.mp hids)
      | some c =>
          cases hj : log.journal with
          | none =>
              rw [result_of_next hcheck hnext, record_of_unjournaled hj] at hres
              cases hres
          | some journal =>
              obtain ⟨path, content, rfl⟩ := h journal hj
              rw [result_of_journal hcheck hnext hj] at hres
              cases happend : ((opened path content).append a.room c).1 with
              | ok _ =>
                  rw [happend] at hres
                  cases hres
              | error refusal =>
                  rw [happend] at hres
                  cases hres
                  obtain ⟨ht, rfl⟩ | ⟨ht, rfl, n, hroom, hn⟩ := Journal.append_error happend
                  · exact .notText hcheck hnext hj ht
                  · exact .stopped hcheck hnext hj ht hroom hn

theorem error_of_refuses (h : log.Refuses a cause) : (log.attempt a).result = .error cause := by
  cases h with
  | noTarget htarget =>
      exact result_of_check ((check_eq_error_iff log).mpr (.noTarget htarget))
  | dataNotObject htarget hdata =>
      exact result_of_check ((check_eq_error_iff log).mpr (.dataNotObject htarget hdata))
  | dataNotText htarget hdata ht =>
      exact result_of_check ((check_eq_error_iff log).mpr (.dataNotText htarget hdata ht))
  | noFreeId hcheck hids =>
      exact (attempt_of_no_id hcheck (IdSource.allocate_eq_none_iff.mpr hids)).1
  | notText hcheck hc hj ht =>
      rw [result_of_journal hcheck hc hj, Journal.append_of_not_text ht]
      rfl
  | stopped hcheck hc hj ht hroom hn =>
      rw [result_of_journal hcheck hc hj, hroom, Journal.append_of_stopped ht hn]
      rfl

/-- A save draws ids once its request is accepted, and as many as it tries. -/
theorem ids_attempt (log : CommandLog) (a : Attempt) :
    ∃ k ≤ idTries, (log.attempt a).ids = { a.ids with drawn := a.ids.drawn + k } := by
  cases hcheck : a.request.check with
  | error cause =>
      refine ⟨0, Nat.zero_le _, ?_⟩
      simp only [CommandLog.attempt, save, hcheck]
      rfl
  | ok _ =>
      obtain ⟨k, hk, hdrawn⟩ := a.ids.allocate_drawn log.byId.contains idTries
      refine ⟨k, hk, ?_⟩
      rw [← hdrawn]
      cases hids : a.ids.allocate log.byId.contains idTries with
      | mk id ids =>
          cases id with
          | none => simp only [CommandLog.attempt, save, hcheck, hids]
          | some id =>
              simp only [CommandLog.attempt, save, hcheck, hids]
              cases log.record a.room (a.request.command id (log.nextTime a.now)) with
              | mk result log' => cases result <;> rfl

/-! ### Runs with failed saves -/

/-- The saves of a run that do not fail. -/
def kept : CommandLog → List Attempt → List Attempt
  | _, [] => []
  | log, a :: as =>
    match (log.attempt a).result with
    | .ok _ => a :: (log.attempt a).log.kept as
    | .error _ => log.kept as

theorem kept_of_ok (h : (log.attempt a).result = .ok c) (as : List Attempt) :
    log.kept (a :: as) = a :: (log.attempt a).log.kept as := by
  rw [kept, h]

theorem kept_of_error (h : (log.attempt a).result = .error cause) (as : List Attempt) :
    log.kept (a :: as) = log.kept as := by
  rw [kept, h]

/-- The saves that fail can be left out of a run. -/
theorem IsOpen.run_kept (h : log.IsOpen) (as : List Attempt) :
    log.saveAll (log.kept as) = log.saveAll as ∧ log.savedBy (log.kept as) = log.savedBy as := by
  induction as generalizing log with
  | nil => exact ⟨rfl, rfl⟩
  | cons a as ih =>
      obtain ⟨cause, hres, hlog⟩ | ⟨c, hres, hopen⟩ := h.attempt a
      · rw [kept_of_error hres, saveAll_cons, savedBy_of_error hres, hlog]
        exact ih h
      · obtain ⟨hlog, hsaved⟩ := ih hopen
        rw [kept_of_ok hres, saveAll_cons, saveAll_cons, savedBy_of_ok hres, savedBy_of_ok hres,
          hlog, hsaved]
        exact ⟨rfl, rfl⟩

/-- A save fails for the reasons that `Refuses` lists and no others.  One that fails leaves the log as
it was, and with it every answer and the journal's file; only ids may have been drawn for it.
Whatever got into the file behind what was there is cut off by rolling back.  So any run of saves
leaves and answers what those of it do that do not fail. -/
theorem failed_save_changes_nothing (h : log.Reachable) :
    (∀ a cause, (log.attempt a).result = .error cause ↔ log.Refuses a cause) ∧
    (∀ a cause, (log.attempt a).result = .error cause → (log.attempt a).log = log ∧
      ∃ k ≤ idTries, (log.attempt a).ids = { a.ids with drawn := a.ids.drawn + k }) ∧
    (∀ journal, log.journal = some journal → ∀ more,
      ({ journal with entry := .file (log.file ++ more) } : Journal).rollBack log.file.length =
        journal) ∧
    ∀ as, log.saveAll (log.kept as) = log.saveAll as ∧
      log.savedBy (log.kept as) = log.savedBy as := by
  refine ⟨fun a cause => ⟨h.isOpen.refuses_of_error, error_of_refuses⟩,
    fun a cause hres => ⟨?_, ids_attempt log a⟩, fun journal hj more => ?_, h.isOpen.run_kept⟩
  · obtain ⟨-, -, hlog⟩ | ⟨c, hok, -⟩ := h.isOpen.attempt a
    · exact hlog
    · cases hres.symm.trans hok
  · obtain ⟨path, content, rfl⟩ := h.isOpen journal hj
    rw [file_of_journal hj]
    exact Journal.rollBack_opened path content more

/-- The file takes ten bytes more, which are the beginning of a line.  They are cut off again, and
the next save is answered as if there had been none before. -/
theorem save_cut_short :
    let log := oneCommand 5
    let cut : Attempt := { restartAt 7 fun _ => [0x62] with room := some 10 }
    let next := restartAt 8 fun _ => [0x62]
    (log.attempt cut).result = .error (.notJournaled [0x6a] .notWritten) ∧
      (log.attempt cut).log = log ∧ log.savedBy [cut, next] = log.savedBy [next] := by
  intro log cut next
  obtain ⟨hfails, hsame, -, hrun⟩ := failed_save_changes_nothing
    (.restored (restore_oneCommand (by decide +kernel)) : log.Reachable)
  have hnext : log.next? cut = some (restartOf [0x62] [0x69] 7) := rfl
  have hcut : (log.attempt cut).result = .error (.notJournaled [0x6a] .notWritten) :=
    (hfails _ _).mpr (.stopped rfl hnext rfl (by decide +kernel) rfl (by decide +kernel))
  refine ⟨hcut, (hsame _ _ hcut).1, ?_⟩
  rw [← (hrun [cut, next]).2, ← (hrun [next]).2, kept_of_error hcut]

end CommandLog

end FleetControl
