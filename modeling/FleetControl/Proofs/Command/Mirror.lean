import FleetControl.Proofs.Command.Audit

/-!
# Mirrors — a log with a journal beside one without

A log that was set up without a journal and one that was opened on a file that is missing start out
with the same commands, namely none.  Each save then has the same checks, the same id and the same
time on both (`save_journaled`); what the journal adds is that the whole command has to be
well-formed text, of which the check of a request sees the data alone.

So the two answer alike just as long as no command is saved whose id or target is ill-formed text
(`told_alike_iff`).  The first of that kind is taken by the log without a journal and is a fault of
the storage on the other, though it is the request that is at fault
(`ill_formed_target_told_apart`).
-/

namespace FleetControl

/-- The text of a command is that of its id, its target and its data. -/
theorem Command.isText_toJson_iff {c : Command} : c.toJson.isText = true ↔
    (Utf8.valid c.id = true ∧ Utf8.valid c.target = true) ∧ c.data.isText = true := by
  have hkind : Utf8.valid c.kind.name = true := by cases c.kind <;> decide
  have htime : (Json.ofInt64 c.createdAt).isText = true := by
    rw [Json.ofInt64]
    split <;> rfl
  have hkeys : Utf8.valid (utf8 "createdAtUnixNano") = true ∧ Utf8.valid (utf8 "data") = true ∧
      Utf8.valid (utf8 "id") = true ∧ Utf8.valid (utf8 "kind") = true ∧
      Utf8.valid (utf8 "targetInstanceId") = true := by decide
  obtain ⟨h₁, h₂, h₃, h₄, h₅⟩ := hkeys
  rw [Json.isText] at htime
  rw [toJson_eq, Json.isText, Json.allText_obj, Json.isText]
  simp only [List.forall_mem_cons, List.not_mem_nil, false_imp_iff, implies_true, and_true,
    Json.allText, hkind, htime, h₁, h₂, h₃, h₄, h₅, true_and]
  constructor
  · rintro ⟨hdata, hid, htarget⟩
    exact ⟨⟨hid, htarget⟩, hdata⟩
  · rintro ⟨⟨hid, htarget⟩, hdata⟩
    exact ⟨hdata, hid, htarget⟩

namespace CommandLog

open Journal (opened text)

variable {plain log log' : CommandLog} {cursor : Cursor} {shards : ℕ} {path content id : Bytes}
  {c : Command} {ids ids' : IdSource} {now : Instant} {room : Option ℕ} {r : Request}
  {calls : List (Request × Instant)}

/-- What a log answers to requests one after the other, each at its time, and with the ids that the
one before left.  The journal's file never runs out of room. -/
def answers (log : CommandLog) (ids : IdSource) :
    List (Request × Instant) → List (Except Refusal Command)
  | [] => []
  | (r, now) :: calls =>
    let saved := log.save ids now none r
    saved.result :: saved.log.answers saved.ids calls

/-- The log after these requests, and the ids that are left. -/
def afterAnswers (log : CommandLog) (ids : IdSource) :
    List (Request × Instant) → CommandLog × IdSource
  | [] => (log, ids)
  | (r, now) :: calls =>
    let saved := log.save ids now none r
    saved.log.afterAnswers saved.ids calls

/-- The log with a journal that is open on a file. -/
def journaled (log : CommandLog) (path content : Bytes) : CommandLog :=
  { log with journal := some (opened path content) }

/-- What is told of an answer: the command, or the kind of the fault. -/
def told (answer : Except Refusal Command) : Except Fault.Kind Command :=
  answer.mapError (·.fault.kind)

/-! ### One save -/

/-- What a save answers has data that is text. -/
theorem isText_data_of_save (h : (log.save ids now none r).result = .ok c) :
    c.data.isText = true := by
  have hnew : log.IsNew now r c := isNew_of_attempt (a := ⟨ids, now, none, r⟩) h
  have hcheck := hnew.checked
  rw [hnew.made]
  simp only [Request.command]
  split
  · rfl
  · rw [Request.check, Command.checkData] at hcheck
    split at hcheck
    · cases hcheck
    split at hcheck
    · cases hcheck
    split at hcheck
    · assumption
    · cases hcheck

theorem save_of_check {cause : Command.Refusal} (h : r.check = .error cause) :
    log.save ids now room r = ⟨.error (.badCommand cause), log, ids⟩ := by
  simp only [save, h]

theorem save_of_no_id (h : r.check = .ok ())
    (hids : ids.allocate log.byId.contains idTries = (none, ids')) :
    log.save ids now room r = ⟨.error .noFreeId, log, ids'⟩ := by
  simp only [save, h, hids]

theorem save_of_recorded (h : r.check = .ok ())
    (hids : ids.allocate log.byId.contains idTries = (some id, ids'))
    (hrecord : log.record room (r.command id (log.nextTime now)) = (.ok (), log')) :
    log.save ids now room r =
      ⟨.ok (r.command id (log.nextTime now)),
        { log'.index (r.command id (log.nextTime now)) with
          latest := some (r.command id (log.nextTime now)).createdAt }, ids'⟩ := by
  simp only [save, h, hids, hrecord]

theorem save_of_not_recorded {cause : Refusal} (h : r.check = .ok ())
    (hids : ids.allocate log.byId.contains idTries = (some id, ids'))
    (hrecord : log.record room (r.command id (log.nextTime now)) = (.error cause, log')) :
    log.save ids now room r = ⟨.error cause, log', ids'⟩ := by
  simp only [save, h, hids, hrecord]

/-- The journal takes a command that is well-formed text, and no other. -/
theorem record_journaled (log : CommandLog) (path content : Bytes) (c : Command) :
    (log.journaled path content).record none c =
      if c.toJson.isText then (.ok (), log.journaled path (content ++ text [c]))
      else (.error (.notJournaled path .notText), log.journaled path content) := by
  have hopened : (log.journaled path content).journal = some (opened path content) := rfl
  rw [record_of_journal hopened]
  split
  · rename_i ht
    have hroom : ∀ n, none = some n → (text [c]).length ≤ n := nofun
    rw [Journal.append_of_room ht hroom]
    rfl
  · rename_i ht
    rw [Journal.append_of_not_text (Bool.eq_false_iff.mpr ht)]
    rfl

/-- A save on both logs: they answer the same and hold the same afterwards, or the command is
ill-formed text, and then the log with the journal refuses it and stays as it is. -/
theorem save_journaled (hj : plain.journal = none) (path content : Bytes) (ids : IdSource)
    (now : Instant) (r : Request) :
    let saved := plain.save ids now none r
    let mirrored := (plain.journaled path content).save ids now none r
    mirrored.ids = saved.ids ∧
      (((∀ c, saved.result = .ok c → c.toJson.isText = true) ∧ mirrored.result = saved.result ∧
        ∃ content', mirrored.log = saved.log.journaled path content') ∨
      ∃ c, saved.result = .ok c ∧ c.toJson.isText = false ∧
        mirrored.result = .error (.notJournaled path .notText) ∧
        mirrored.log = plain.journaled path content) := by
  cases hcheck : r.check with
  | error cause =>
      rw [save_of_check hcheck, save_of_check hcheck]
      exact ⟨rfl, .inl ⟨nofun, rfl, content, rfl⟩⟩
  | ok _ =>
      cases hids : ids.allocate plain.byId.contains idTries with
      | mk id ids' =>
          have hids' : ids.allocate (plain.journaled path content).byId.contains idTries =
              (id, ids') := hids
          cases id with
          | none =>
              rw [save_of_no_id hcheck hids, save_of_no_id hcheck hids']
              exact ⟨rfl, .inl ⟨nofun, rfl, content, rfl⟩⟩
          | some id =>
              let c := r.command id (plain.nextTime now)
              have hrecord := plain.record_journaled path content c
              rw [save_of_recorded hcheck hids (record_of_unjournaled hj none c)]
              -- both come to the same command, and its text decides whether it can be written
              cases ht : c.toJson.isText with
              | true =>
                  rw [if_pos ht] at hrecord
                  rw [save_of_recorded hcheck hids' hrecord]
                  refine ⟨rfl, .inl ⟨?_, rfl, content ++ text [c], rfl⟩⟩
                  rintro _ ⟨⟩
                  exact ht
              | false =>
                  rw [if_neg (Bool.eq_false_iff.mp ht)] at hrecord
                  rw [save_of_not_recorded hcheck hids' hrecord]
                  exact ⟨rfl, .inr ⟨c, rfl, ht, rfl, rfl⟩⟩

/-! ### Saves one after the other -/

theorem answers_cons (log : CommandLog) (ids : IdSource) (r : Request) (now : Instant)
    (calls : List (Request × Instant)) :
    log.answers ids ((r, now) :: calls) =
      (log.save ids now none r).result ::
        (log.save ids now none r).log.answers (log.save ids now none r).ids calls := rfl

theorem afterAnswers_cons (log : CommandLog) (ids : IdSource) (r : Request) (now : Instant)
    (calls : List (Request × Instant)) :
    log.afterAnswers ids ((r, now) :: calls) =
      (log.save ids now none r).log.afterAnswers (log.save ids now none r).ids calls := rfl

theorem isText_data_of_mem (h : .ok c ∈ log.answers ids calls) : c.data.isText = true := by
  induction calls generalizing log ids with
  | nil => cases h
  | cons call calls ih =>
      obtain ⟨r, now⟩ := call
      rcases List.mem_cons.mp h with h | h
      · exact isText_data_of_save h.symm
      · exact ih h

/-- The ids and the targets of the commands that are answered are well-formed text. -/
def AllText (answers : List (Except Refusal Command)) : Prop :=
  ∀ c, .ok c ∈ answers → Utf8.valid c.id = true ∧ Utf8.valid c.target = true

theorem allText_answers_iff : AllText (log.answers ids calls) ↔
    ∀ c, .ok c ∈ log.answers ids calls → c.toJson.isText = true := by
  refine forall_congr' fun c => forall_congr' fun hc => ?_
  rw [Command.isText_toJson_iff, and_iff_left (isText_data_of_mem hc)]

/-- As long as everything is well-formed text, the two logs answer the same. -/
theorem answers_journaled (hj : plain.journal = none) (path content : Bytes)
    (h : AllText (plain.answers ids calls)) :
    (plain.journaled path content).answers ids calls = plain.answers ids calls ∧
      ∃ content', (plain.journaled path content).afterAnswers ids calls =
        ((plain.afterAnswers ids calls).1.journaled path content',
          (plain.afterAnswers ids calls).2) := by
  rw [allText_answers_iff] at h
  induction calls generalizing plain content ids with
  | nil => exact ⟨rfl, content, rfl⟩
  | cons call calls ih =>
      obtain ⟨r, now⟩ := call
      obtain ⟨hids, ⟨-, hresult, content', hlog⟩ | ⟨c, hok, ht, -, -⟩⟩ :=
        save_journaled hj path content ids now r
      · have hj' : (plain.save ids now none r).log.journal = none :=
          journal_save_of_none hj ids none r
        obtain ⟨hanswers, hafter⟩ := ih hj' content' fun c hc => h c (List.mem_cons_of_mem _ hc)
        rw [answers_cons, answers_cons, afterAnswers_cons, afterAnswers_cons, hids, hresult, hlog,
          hanswers]
        exact ⟨rfl, hafter⟩
      · rw [h c (by rw [answers_cons, hok]; exact List.mem_cons_self)] at ht
        cases ht

/-- If the same is told of all answers, everything is well-formed text. -/
theorem allText_of_told (hj : plain.journal = none) (path content : Bytes)
    (h : ((plain.journaled path content).answers ids calls).map told =
      (plain.answers ids calls).map told) : AllText (plain.answers ids calls) := by
  rw [allText_answers_iff]
  induction calls generalizing plain content ids with
  | nil => exact fun c hc => nomatch hc
  | cons call calls ih =>
      obtain ⟨r, now⟩ := call
      rw [answers_cons, answers_cons, List.map_cons, List.map_cons] at h
      obtain ⟨hhead, htail⟩ := List.cons.inj h
      obtain ⟨hids, ⟨ht, -, content', hlog⟩ | ⟨c, hok, -, hrefused, -⟩⟩ :=
        save_journaled hj path content ids now r
      · rw [hids, hlog] at htail
        have hj' : (plain.save ids now none r).log.journal = none :=
          journal_save_of_none hj ids none r
        intro c hc
        rcases List.mem_cons.mp hc with hc | hc
        · exact ht c hc.symm
        · exact ih hj' content' htail c hc
      · rw [hok, hrefused] at hhead
        cases hhead

theorem journal_afterAnswers_of_none (hj : plain.journal = none) (ids : IdSource)
    (calls : List (Request × Instant)) : (plain.afterAnswers ids calls).1.journal = none := by
  induction calls generalizing plain ids with
  | nil => exact hj
  | cons call calls ih => exact ih (journal_save_of_none hj ids none call.1) _

/-- A log with a journal on a file that was missing is told apart from one without exactly if a
command is saved by the latter whose id or target is ill-formed text.  Up to the first of these both
answer the same; that one is a fault of the storage with the journal, and the log stays as it
was. -/
theorem told_alike_iff (h : setup cursor shards = .ok plain) (path : Bytes) :
    ∃ mirror, (restore cursor { path, entry := .nothing }).result = .ok mirror ∧
      ∀ ids calls,
        ((mirror.answers ids calls).map told = (plain.answers ids calls).map told ↔
          AllText (plain.answers ids calls)) ∧
        (AllText (plain.answers ids calls) →
          mirror.answers ids calls = plain.answers ids calls ∧
          let p := plain.afterAnswers ids calls
          let m := mirror.afterAnswers ids calls
          ∀ r now c, (p.1.save p.2 now none r).result = .ok c →
            ¬ (Utf8.valid c.id = true ∧ Utf8.valid c.target = true) →
            ∃ cause, (m.1.save m.2 now none r).result = .error cause ∧
              cause.fault.kind = .storage ∧ (m.1.save m.2 now none r).log = m.1) := by
  have hj : plain.journal = none := (records_of_setup h).2
  -- a file that was missing is replayed as an empty one and opened with nothing in it
  have hmirror : (restore cursor { path, entry := .nothing }).result =
      .ok (plain.journaled path []) := by
    rw [setup] at h
    split at h
    · cases h
      rfl
    · cases h
  refine ⟨_, hmirror, fun ids calls => ⟨⟨allText_of_told hj path [], fun ht => ?_⟩, fun ht => ?_⟩⟩
  · rw [(answers_journaled hj path [] ht).1]
  · obtain ⟨hanswers, content, hafter⟩ := answers_journaled hj path [] ht
    refine ⟨hanswers, fun r now c hc hbad => ?_⟩
    rw [hafter]
    obtain ⟨-, ⟨htext, -⟩ | ⟨c', -, -, hrefused, hkept⟩⟩ :=
      save_journaled (journal_afterAnswers_of_none hj ids calls) path content
        (plain.afterAnswers ids calls).2 now r
    · exact absurd (Command.isText_toJson_iff.mp (htext c hc)).1 hbad
    · exact ⟨_, hrefused, rfl, hkept⟩

/-- A save that both answer, one that both refuse, and one for a target that is no text. -/
theorem told_alike_sample :
    let calls : List (Request × Instant) :=
      [(⟨.restart, [0x69], .null⟩, 10), (⟨.restart, [], .null⟩, 9)]
    let ids : IdSource := { idAt := fun n => [0x61 + UInt8.ofNat n] }
    let plain : CommandLog := { cursor := .plain }
    ∃ mirror, (restore .plain { path := [0x6a], entry := .nothing }).result = .ok mirror ∧
      mirror.answers ids calls = plain.answers ids calls ∧
      let m := mirror.afterAnswers ids calls
      ∃ cause, (m.1.save m.2 11 none ⟨.restart, [0xff], .null⟩).result = .error cause ∧
        cause.fault.kind = .storage := by
  intro calls ids plain
  obtain ⟨mirror, hmirror, halike⟩ :=
    told_alike_iff (rfl : setup .plain 1 = .ok { cursor := .plain }) [0x6a]
  have hanswers : plain.answers ids calls =
      [.ok ⟨[0x62], .restart, [0x69], .obj [], 10⟩, .error (.badCommand .noTarget)] := rfl
  have htext : AllText (plain.answers ids calls) := by
    intro c hc
    rw [hanswers] at hc
    obtain rfl : c = ⟨[0x62], .restart, [0x69], .obj [], 10⟩ := by simpa using hc
    decide
  obtain ⟨hsame, hfirst⟩ := (halike ids calls).2 htext
  obtain ⟨cause, hrefused, hkind, -⟩ :=
    hfirst ⟨.restart, [0xff], .null⟩ 11 ⟨[0x63], .restart, [0xff], .obj [], 11⟩ rfl (by decide)
  exact ⟨mirror, hmirror, hsame, cause, hrefused, hkind⟩

/-- A request for a target that is no text. -/
theorem ill_formed_target_told_apart :
    let calls : List (Request × Instant) := [(⟨.restart, [0xff], .obj []⟩, 10)]
    let ids : IdSource := { idAt := fun _ => [0x61] }
    ∃ plain mirror, setup .plain 1 = .ok plain ∧
      (restore .plain { path := [0x6a], entry := .nothing }).result = .ok mirror ∧
      plain.answers ids calls = [.ok ⟨[0x61], .restart, [0xff], .obj [], 10⟩] ∧
      (mirror.answers ids calls).map told = [.error .storage] ∧
      (mirror.answers ids calls).map told ≠ (plain.answers ids calls).map told :=
  ⟨{ cursor := .plain }, ({ cursor := .plain } : CommandLog).journaled [0x6a] [], rfl, rfl, rfl,
    rfl, nofun⟩

end CommandLog

end FleetControl
