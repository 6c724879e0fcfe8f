import FleetControl.Proofs.Command.Alike

/-!
# The log as a record — what it answers after any saves

A log that was started empty records what was saved (`Records.saveAll`), whatever the clock showed
and whatever ids were drawn, with a journal or without.  So its answers are all about one list of
commands (`Tells`): the listing, the search by id and the lists of the instances.  Keys of commands
that were created before the epoch do not follow the order of saving, so the lists are that list in
another order.

A command that was found once is found ever after, since ids are given once: a save that draws only
ids that are taken fails (`indexes_tell_the_same`).
-/

namespace FleetControl

/-! ### Ids that are drawn -/

namespace IdSource

/-- The id that a source yields after `n` others. -/
def upcoming (s : IdSource) (n : ℕ) : Bytes := s.idAt (s.drawn + n + 1)

theorem upcoming_draw (s : IdSource) (n : ℕ) : s.draw.2.upcoming n = s.upcoming (n + 1) :=
  congrArg s.idAt (by simp only [draw]; omega)

/-- No id is allocated if every one that is tried is empty or taken. -/
theorem allocate_eq_none_iff {isTaken : Bytes → Bool} {tries : ℕ} {ids : IdSource} :
    (ids.allocate isTaken tries).1 = none ↔
      ∀ n < tries, ids.upcoming n = [] ∨ isTaken (ids.upcoming n) = true := by
  induction tries generalizing ids with
  | zero => exact iff_of_true rfl nofun
  | succ tries ih =>
      have hstep : ids.allocate isTaken (tries + 1) =
          if (ids.upcoming 0).isEmpty || isTaken (ids.upcoming 0) then
            ids.draw.2.allocate isTaken tries
          else (some (ids.upcoming 0), ids.draw.2) := rfl
      rw [hstep, Nat.forall_lt_succ_left, ← List.isEmpty_iff, ← Bool.or_eq_true]
      split
      · rename_i h
        rw [ih, and_iff_right h]
        simp only [upcoming_draw]
      · rename_i h
        exact iff_of_false nofun fun hall => h hall.1

end IdSource

namespace CommandLog

variable {log : CommandLog} {cursor : Cursor} {shards : ℕ} {cs saved : List Command} {c : Command}
  {as : List Attempt} {a : Attempt}

/-! ### Saves one after the other -/

theorem savedBy_append (log : CommandLog) (as bs : List Attempt) :
    log.savedBy (as ++ bs) = log.savedBy as ++ (log.saveAll as).savedBy bs := by
  induction as generalizing log with
  | nil => rfl
  | cons a as ih => rw [List.cons_append, savedBy, ih, savedBy, saveAll_cons, List.append_assoc]

theorem stampable_append (log : CommandLog) (as bs : List Attempt) :
    log.Stampable (as ++ bs) ↔ log.Stampable as ∧ (log.saveAll as).Stampable bs := by
  induction as generalizing log with
  | nil => exact (and_iff_right trivial).symm
  | cons a as ih => rw [List.cons_append, Stampable, ih, Stampable, saveAll_cons, and_assoc]

theorem records_of_setup (h : setup cursor shards = .ok log) :
    log.Records [] ∧ log.journal = none := by
  rw [setup] at h
  split at h
  · cases h
    exact ⟨records_nil cursor, rfl⟩
  · cases h

/-- Along saves a log records what they save. -/
theorem Records.saveAll (h : log.Records saved) (ht : log.Stampable as) :
    (log.saveAll as).Records (saved ++ log.savedBy as) := by
  induction as generalizing log saved with
  | nil => rwa [savedBy, List.append_nil]
  | cons a as ih =>
      obtain ⟨hnow, hrest⟩ := ht
      rw [saveAll_cons, savedBy, ← List.append_assoc]
      exact ih (h.of_save hnow a.ids a.room a.request) hrest

theorem journal_saveAll_of_none (hj : log.journal = none) (as : List Attempt) :
    (log.saveAll as).journal = none := by
  induction as generalizing log with
  | nil => exact hj
  | cons a as ih => exact ih (journal_save_of_none hj a.ids a.room a.request)

theorem records_saveAll (h : setup cursor shards = .ok log) (ht : log.Stampable as) :
    (log.saveAll as).Records (log.savedBy as) ∧ (log.saveAll as).journal = none := by
  obtain ⟨hrecords, hj⟩ := records_of_setup h
  exact ⟨hrecords.saveAll ht, journal_saveAll_of_none hj as⟩

/-- What a save answers is a new command. -/
theorem isNew_of_attempt (h : (log.attempt a).result = .ok c) :
    log.IsNew a.now a.request c := by
  obtain ⟨cause, hresult, -⟩ | ⟨c', hc, ⟨cause, log', -, hresult, -⟩ | ⟨log', -, hresult, -⟩⟩ :=
    save_cases log a.ids a.now a.room a.request
  · cases hresult.symm.trans h
  · cases hresult.symm.trans h
  · cases hresult.symm.trans h
    exact hc

/-- A command is not created before the clock's time at its save. -/
theorem le_createdAt (ht : log.CanStamp a.now) (h : (log.attempt a).result = .ok c) :
    a.now ≤ c.createdAt := by
  rw [(isNew_of_attempt h).createdAt]
  exact le_nextTime ht

/-! ### What a log answers -/

/-- The answers of a log are all about these commands.  Each is listed once, found by its id, and
listed once for the instance that it is for and for no other. -/
structure Tells (log : CommandLog) (cs : List Command) : Prop where
  listed : ∃ items, log.list {} = .ok { items } ∧ items.Perm cs ∧ Sorted items
  found : ∀ id c, log.find id = .ok c ↔ c ∈ cs ∧ c.id = id
  placed : ∀ i, (log.ofInstance i).Perm (cs.filter (·.target == i)) ∧ Sorted (log.ofInstance i)
  bounded : ∀ i after limit, log.ofInstanceAfter i after limit =
    ((log.ofInstance i).filter fun c => Bytes.before after c.orderKey).take limit
  counted : log.size = cs.length

/-- Commands with different ids have different keys. -/
theorem nodup_orderKey (h : (cs.map (·.id)).Nodup) : (cs.map Command.orderKey).Nodup := by
  rw [List.Nodup, List.pairwise_map] at h ⊢
  exact h.imp fun hne e => hne (Command.orderKey_inj.mp e).2

theorem list_all (log : CommandLog) : log.list {} = .ok { items := log.ordered.values } := by
  rw [list_eq, paginate_all]
  rfl

/-- The answers of a log whose commands differ in their keys are about these commands, just if they
differ in their ids too. -/
theorem Holds.tells_iff (h : log.Holds cs) (hn : (cs.map Command.orderKey).Nodup) :
    log.Tells cs ↔ (cs.map (·.id)).Nodup := by
  constructor
  · intro ht
    exact (h.nodup_id_iff hn.of_map).mpr fun c hc => (ht.found c.id c).mpr ⟨hc, rfl⟩
  · intro hd
    exact {
      listed := ⟨_, log.list_all, h.values_perm hn, h.values_sorted⟩
      found := fun _ _ => h.find_eq_ok_iff hd
      placed := fun i => ⟨h.ofInstance_perm hn i, h.ofInstance_sorted i⟩
      bounded := ofInstanceAfter_eq_filter h
      counted := h.size_eq hn }

theorem Records.tells (h : log.Records saved) : log.Tells saved :=
  (h.holds.tells_iff (nodup_orderKey h.distinct)).mpr h.distinct

theorem Tells.existsUnique_instance (h : log.Tells cs) (hc : c ∈ cs) :
    ∃! i, c ∈ log.ofInstance i := by
  have hmem : ∀ i, c ∈ log.ofInstance i ↔ c.target = i := by
    intro i
    rw [(h.placed i).1.mem_iff, List.mem_filter, beq_iff_eq, and_iff_right hc]
  exact ⟨c.target, (hmem _).mpr rfl, fun i hi => ((hmem i).mp hi).symm⟩

/-! ### Saves that find an id, or none -/

/-- The command that a save would make, if it finds an id. -/
def next? (log : CommandLog) (a : Attempt) : Option Command :=
  (a.ids.allocate log.byId.contains idTries).1.map fun id =>
    a.request.command id (log.nextTime a.now)

theorem result_of_check {cause : Command.Refusal} (h : a.request.check = .error cause) :
    (log.attempt a).result = .error (.badCommand cause) := by
  simp only [attempt, save, h]

theorem attempt_of_no_id (hcheck : a.request.check = .ok ())
    (h : (a.ids.allocate log.byId.contains idTries).1 = none) :
    (log.attempt a).result = .error .noFreeId ∧ (log.attempt a).log = log := by
  obtain ⟨ids, hids⟩ : ∃ ids, a.ids.allocate log.byId.contains idTries = (none, ids) :=
    ⟨_, Prod.ext h rfl⟩
  simp only [attempt, save, hcheck, hids, and_self]

/-- What writing the command comes to is what the save does. -/
theorem result_of_next (hcheck : a.request.check = .ok ()) (h : log.next? a = some c) :
    (log.attempt a).result = (log.record a.room c).1.map fun _ => c := by
  obtain ⟨id, hid, rfl⟩ := Option.map_eq_some_iff.mp h
  obtain ⟨ids, hids⟩ : ∃ ids, a.ids.allocate log.byId.contains idTries = (some id, ids) :=
    ⟨_, Prod.ext hid rfl⟩
  simp only [attempt, save, hcheck, hids]
  cases log.record a.room (a.request.command id (log.nextTime a.now)) with
  | mk result log' => cases result <;> rfl

theorem next?_of_id {id : Bytes} (h : (a.ids.allocate log.byId.contains idTries).1 = some id) :
    log.next? a = some (a.request.command id (log.nextTime a.now)) := by
  rw [next?, h]
  rfl

theorem attempt_of_id (hj : log.journal = none) (hcheck : a.request.check = .ok ()) {id : Bytes}
    (h : (a.ids.allocate log.byId.contains idTries).1 = some id) :
    (log.attempt a).result = .ok (a.request.command id (log.nextTime a.now)) := by
  rw [result_of_next hcheck (next?_of_id h), record_of_unjournaled hj]
  rfl

/-- A log knows the ids of the commands that it holds. -/
theorem Holds.contains_id_iff (h : log.Holds cs) {id : Bytes} :
    log.byId.contains id = true ↔ ∃ c ∈ cs, c.id = id :=
  (Table.contains_iff_of_find? h.byId).trans List.mem_map

/-- A save finds no id if every one that it tries is empty or taken. -/
theorem Holds.allocate_eq_none_iff (h : log.Holds cs) (ids : IdSource) :
    (ids.allocate log.byId.contains idTries).1 = none ↔
      ∀ n < idTries, ids.upcoming n = [] ∨ ∃ c ∈ cs, c.id = ids.upcoming n := by
  rw [IdSource.allocate_eq_none_iff]
  simp only [h.contains_id_iff]

/-- A save of what may be saved succeeds if one of the ids that it tries is free. -/
theorem Holds.attempt_ok_iff (h : log.Holds cs) (hj : log.journal = none)
    (hcheck : a.request.check = .ok ()) : (∃ c, (log.attempt a).result = .ok c) ↔
      ∃ n < idTries, a.ids.upcoming n ≠ [] ∧ ∀ c ∈ cs, c.id ≠ a.ids.upcoming n := by
  have hsome : (∃ c, (log.attempt a).result = .ok c) ↔
      (a.ids.allocate log.byId.contains idTries).1 ≠ none := by
    cases hid : (a.ids.allocate log.byId.contains idTries).1 with
    | none =>
        rw [(attempt_of_no_id hcheck hid).1]
        exact iff_of_false (fun ⟨_, hc⟩ => nomatch hc) fun hne => hne rfl
    | some id =>
        rw [attempt_of_id hj hcheck hid]
        exact iff_of_true ⟨_, rfl⟩ nofun
  rw [hsome, ne_eq, h.allocate_eq_none_iff]
  push Not
  rfl

/-! ### The record -/

/-- After any saves the answers of a log are about what was saved.  Ids differ, creation times rise
along the saves and are not before the clock's, and what is found by its id stays so.  A save for
which all ids are taken that it tries fails with a fault of the storage and changes nothing; it
succeeds if one of them is free. -/
theorem indexes_tell_the_same (h : setup cursor shards = .ok log) (ht : log.Stampable as) :
    let saved := log.savedBy as
    (log.saveAll as).Tells saved ∧
      (∀ c ∈ saved, ∃! i, c ∈ (log.saveAll as).ofInstance i) ∧
      (saved.map (·.id)).Nodup ∧
      saved.Pairwise (fun a b => a.createdAt < b.createdAt) ∧
      (∀ before a after c, as = before ++ a :: after →
        ((log.saveAll before).attempt a).result = .ok c → a.now ≤ c.createdAt) ∧
      (∀ before after id c, as = before ++ after →
        (log.saveAll before).find id = .ok c → (log.saveAll as).find id = .ok c) ∧
      ∀ a : Attempt, a.request.check = .ok () →
        ((∃ c, ((log.saveAll as).attempt a).result = .ok c) ↔
          ∃ n < idTries, a.ids.upcoming n ≠ [] ∧ ∀ c ∈ saved, c.id ≠ a.ids.upcoming n) ∧
        ((∀ n < idTries, ∃ c ∈ saved, c.id = a.ids.upcoming n) →
          (∃ cause, ((log.saveAll as).attempt a).result = .error cause ∧
            cause.fault.kind = .storage) ∧
          ((log.saveAll as).attempt a).log = log.saveAll as) := by
  intro saved
  obtain ⟨hrecords, hj⟩ := records_saveAll h ht
  refine ⟨hrecords.tells, fun c hc => hrecords.tells.existsUnique_instance hc, hrecords.distinct,
    hrecords.rising, ?_, ?_, fun a hcheck => ⟨?_, ?_⟩⟩
  · rintro before a after c rfl hc
    obtain ⟨-, hnow, -⟩ := (stampable_append log before (a :: after)).mp ht
    exact le_createdAt hnow hc
  · rintro before after id c rfl hc
    have hbefore := (records_saveAll h ((stampable_append log before after).mp ht).1).1
    obtain ⟨hmem, hid⟩ := hbefore.find_eq_ok_iff.mp hc
    refine hrecords.find_eq_ok_iff.mpr ⟨?_, hid⟩
    rw [savedBy_append]
    exact List.mem_append_left _ hmem
  · exact hrecords.holds.attempt_ok_iff hj hcheck
  · intro htaken
    obtain ⟨hresult, hlog⟩ := attempt_of_no_id hcheck
      ((hrecords.holds.allocate_eq_none_iff a.ids).mpr fun n hn => .inr (htaken n hn))
    exact ⟨⟨_, hresult, rfl⟩, hlog⟩

/-- A restart of instance i at a time, under the first free of some ids. -/
def restartAt (now : Instant) (idAt : ℕ → Bytes) : Attempt :=
  ⟨{ idAt }, now, none, ⟨.restart, [0x69], .null⟩⟩

/-- The clock goes back behind the first command.  The second is later all the same, and it is not
saved under the id of the first, nor is the third under any. -/
theorem record_of_clock_going_back :
    let log : CommandLog := { cursor := .plain }
    let as := [restartAt 5 fun _ => [0x61], restartAt 3 fun n => if n = 1 then [0x61] else [0x62]]
    (log.savedBy as).map (·.createdAt) = [5, 6] ∧ (log.savedBy as).map (·.id) = [[0x61], [0x62]] ∧
      (log.saveAll as).Tells (log.savedBy as) ∧
      ∃ cause, ((log.saveAll as).attempt (restartAt 7 fun _ => [0x61])).result = .error cause ∧
        cause.fault.kind = .storage := by
  intro log as
  have ht : log.Stampable as := by
    refine ⟨?_, ?_, trivial⟩
    · intro t hlatest
      cases hlatest
    · intro t hlatest _
      cases hlatest
      decide
  have hids : (log.savedBy as).map (·.id) = [[0x61], [0x62]] := by decide +kernel
  have hsetup : setup .plain 1 = .ok log := rfl
  obtain ⟨htells, -, -, -, -, -, hnext⟩ := indexes_tell_the_same hsetup ht
  obtain ⟨-, htaken⟩ := hnext (restartAt 7 fun _ => [0x61]) rfl
  refine ⟨by decide +kernel, hids, htells, (htaken fun n _ => ?_).1⟩
  have hfirst : [0x61] ∈ (log.savedBy as).map (·.id) := by
    rw [hids]
    exact List.mem_cons_self
  exact List.mem_map.mp hfirst

end CommandLog

end FleetControl
