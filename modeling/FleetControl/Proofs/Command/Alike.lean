import FleetControl.Proofs.Command.Restore
import FleetControl.Proofs.Page.Listing

/-!
# Reopening a log — answers before and after

Two logs are *alike* if they find the same commands, up to how numbers in their data are held
(`Alike`).  Alike logs answer alike: `Alike.list`, `Alike.find`, `Alike.ofInstance`,
`Alike.ofInstanceAfter`, `Alike.size`, and `Alike.save_result` for the next save.

As long as there are times left to stamp commands with, a log with a journal is at every moment the
one that its commands give (`saveAll_openOn`).  So the log that is restored from its file is
alike, and it is the same if what was saved was settled (`reopened_log_answers_alike`).
-/

namespace FleetControl

namespace CommandLog

open Journal (opened text)

variable {log log' : CommandLog} {cursor : Cursor} {path content : Bytes} {entry : Entry}
  {cs ds : List Command} {c : Command}

/-! ### Alike logs -/

/-- The logs find the same commands, settled, and save in the same way. -/
structure Alike (log log' : CommandLog) : Prop where
  cursor : log.cursor = log'.cursor
  latest : log.latest = log'.latest
  journal : log.journal = log'.journal
  ordered : log.ordered.map Command.settle = log'.ordered.map Command.settle
  byId : log.byId.map Command.settle = log'.byId.map Command.settle
  byInstance : ∀ i, ((log.byInstance.get? i).getD ∅).map Command.settle =
    ((log'.byInstance.get? i).getD ∅).map Command.settle

theorem find?_map_settle {p : Command → Bool} (hp : ∀ c, p c.settle = p c) (cs : List Command) :
    (cs.find? p).map Command.settle = (cs.map Command.settle).find? p := by
  rw [List.find?_map]
  exact congrArg (Option.map Command.settle) (congrArg (cs.find? ·) (funext fun c => (hp c).symm))

theorem filter_map_settle {p : Command → Bool} (hp : ∀ c, p c.settle = p c) (cs : List Command) :
    (cs.filter p).map Command.settle = (cs.map Command.settle).filter p := by
  rw [List.filter_map]
  exact congrArg (List.map Command.settle) (congrArg (cs.filter ·) (funext fun c => (hp c).symm))

/-- Logs with the same commands, settled, are alike. -/
theorem Holds.alike (h : log.Holds cs) (h' : log'.Holds ds)
    (e : cs.map Command.settle = ds.map Command.settle) (hc : log.cursor = log'.cursor)
    (hl : log.latest = log'.latest) (hj : log.journal = log'.journal) : log.Alike log' where
  cursor := hc
  latest := hl
  journal := hj
  ordered := Table.map_eq_map_of_get? fun key => by
    rw [h.ordered, h'.ordered, find?_map_settle fun _ => rfl, e, find?_map_settle fun _ => rfl]
  byId := Table.map_eq_map_of_get? fun id => by
    rw [h.byId, h'.byId, find?_map_settle fun _ => rfl, e, find?_map_settle fun _ => rfl]
  byInstance i := Table.map_eq_map_of_get? fun key => by
    rw [h.byInstance, h'.byInstance, find?_map_settle fun _ => rfl, filter_map_settle fun _ => rfl,
      e, find?_map_settle fun _ => rfl, filter_map_settle fun _ => rfl]

/-! ### Answers of alike logs -/

theorem values_map (t : Table Command) :
    t.values.map Command.settle = (t.map Command.settle).values := by
  rw [Table.values, Table.values, Table.map, List.map_map, List.map_map]
  rfl

theorem filter_map (t : Table Command) (keep : Bytes → Bool) :
    (t.filter fun key _ => keep key).map Command.settle =
      (t.map Command.settle).filter fun key _ => keep key := by
  refine Table.ext_get? fun key => ?_
  rw [Table.get?_map, Table.get?_filter, Table.get?_filter, Table.get?_map]
  cases t.get? key with
  | none => rfl
  | some c => cases keep key <;> simp [Option.filter]

theorem Alike.list (h : log.Alike log') (r : PageRequest) :
    (log.list r).map (Page.map Command.settle) = (log'.list r).map (Page.map Command.settle) := by
  have hlist (log : CommandLog) : (log.list r).map (Page.map Command.settle) =
      ((paginate (·.1) (log.ordered.map Command.settle).toList log.cursor r).map
        (Page.map (·.2))).mapError Refusal.badPage := by
    have hentries : (log.ordered.map Command.settle).toList =
        log.ordered.toList.map fun e => (e.1, e.2.settle) := rfl
    rw [hentries, paginate_map, list_eq]
    cases paginate (·.1) log.ordered.toList log.cursor r with
    | error cause => rfl
    | ok page => simp [Except.map, Except.mapError, Page.map]
  rw [hlist, hlist, h.ordered, h.cursor]

theorem Alike.find (h : log.Alike log') (id : Bytes) :
    (log.find id).map Command.settle = (log'.find id).map Command.settle := by
  have hfind (log : CommandLog) : (log.find id).map Command.settle =
      ((log.byId.map Command.settle).get? id).elim (.error (.notFound id)) .ok := by
    rw [CommandLog.find, Table.get?_map]
    cases log.byId.get? id <;> rfl
  rw [hfind, hfind, h.byId]

theorem Alike.ofInstance (h : log.Alike log') (i : Bytes) :
    (log.ofInstance i).map Command.settle = (log'.ofInstance i).map Command.settle := by
  rw [CommandLog.ofInstance, CommandLog.ofInstance, values_map, values_map, h.byInstance]

theorem Alike.ofInstanceAfter (h : log.Alike log') (i after : Bytes) (limit : ℕ) :
    (log.ofInstanceAfter i after limit).map Command.settle =
      (log'.ofInstanceAfter i after limit).map Command.settle := by
  rw [CommandLog.ofInstanceAfter, CommandLog.ofInstanceAfter]
  simp only [List.map_take, values_map]
  rw [filter_map, filter_map, h.byInstance]

theorem Alike.size (h : log.Alike log') : log.size = log'.size := by
  have hsize (t : Table Command) : t.size = (t.map Command.settle).size :=
    (List.length_map _).symm
  rw [CommandLog.size, CommandLog.size, hsize, h.ordered, ← hsize]

/-- The next save makes the same command, or fails for the same reason. -/
theorem Alike.save_result (h : log.Alike log') (ids : IdSource) (now : Instant) (room : Option ℕ)
    (r : Request) : (log.save ids now room r).result = (log'.save ids now room r).result := by
  -- the same ids are taken, the time is the same, and the journals answer the same
  have hcontains : log.byId.contains = log'.byId.contains := by
    funext id
    have hget := congrArg (fun t => (Table.get? t id).isSome) h.byId
    simp only [Table.get?_map, Option.isSome_map] at hget
    exact hget
  have htime : log.nextTime now = log'.nextTime now := by rw [nextTime, nextTime, h.latest]
  have hrecord (c : Command) : (log.record room c).1 = (log'.record room c).1 := by
    rw [record, record, h.journal]
    cases log'.journal <;> rfl
  rw [save, save, hcontains, htime]
  cases r.check with
  | error cause => rfl
  | ok _ =>
      cases ids.allocate log'.byId.contains idTries with
      | mk id ids' =>
          cases id with
          | none => rfl
          | some id =>
              have hr := hrecord (r.command id (log'.nextTime now))
              simp only
              generalize log.record room (r.command id (log'.nextTime now)) = out at hr ⊢
              generalize log'.record room (r.command id (log'.nextTime now)) = out' at hr ⊢
              obtain ⟨result, after⟩ := out
              obtain ⟨result', after'⟩ := out'
              cases hr
              cases result <;> rfl

/-! ### Logs that their commands give -/

theorem latest_ofCommands (cursor : Cursor) (cs : List Command) :
    (ofCommands cursor cs).latest = (cs.map (·.createdAt)).foldl laterThan none := by
  induction cs using List.reverseRecOn with
  | nil => rfl
  | append_singleton cs c ih =>
      rw [ofCommands_append, List.map_append, List.foldl_append, ← ih]
      rfl

theorem alike_openOn (cursor : Cursor) (path content : Bytes)
    (e : cs.map Command.settle = ds.map Command.settle) :
    (openOn cursor path content cs).Alike (openOn cursor path content ds) := by
  have htimes : cs.map (·.createdAt) = ds.map (·.createdAt) := by
    have he := congrArg (List.map (·.createdAt)) e
    rwa [List.map_map, List.map_map] at he
  have hlatest : (ofCommands cursor cs).latest = (ofCommands cursor ds).latest := by
    rw [latest_ofCommands, latest_ofCommands, htimes]
  have hcursor : (ofCommands cursor cs).cursor = (ofCommands cursor ds).cursor := by
    rw [ofCommands_cursor, ofCommands_cursor]
  exact (holds_openOn cursor path content cs).alike (holds_openOn cursor path content ds) e hcursor
    hlatest rfl

/-- There is a time left at every save to stamp the command with. -/
def Stampable (log : CommandLog) : List Attempt → Prop
  | [] => True
  | a :: as => log.CanStamp a.now ∧ (log.attempt a).log.Stampable as

/-- A command that is saved is later than all before. -/
theorem IsNew.laterThan {now : Instant} {r : Request} (h : log.IsNew now r c)
    (ht : log.CanStamp now) : laterThan log.latest c.createdAt = some c.createdAt := by
  cases hl : log.latest with
  | none => rfl
  | some t =>
      have hlt : t < c.createdAt := h.createdAt ▸ lt_nextTime ht hl
      rw [CommandLog.laterThan, if_pos hlt]

theorem add_openOn (cursor : Cursor) (path content content' : Bytes) (cs : List Command)
    {now : Instant} {r : Request} (hc : (openOn cursor path content cs).IsNew now r c)
    (ht : (openOn cursor path content cs).CanStamp now) :
    { (openOn cursor path content cs).index c with
      latest := some c.createdAt
      journal := some (opened path content') } = openOn cursor path content' (cs ++ [c]) := by
  rw [← hc.laterThan ht, openOn, openOn, ofCommands_append]
  rfl

/-- At every moment the log is the one that its commands give. -/
theorem saveAll_openOn {as : List Attempt} (hn : (cs.map Command.orderKey).Nodup)
    (ht : (openOn cursor path content cs).Stampable as) :
    (openOn cursor path content cs).saveAll as =
      openOn cursor path (content ++ text ((openOn cursor path content cs).savedBy as))
        (cs ++ (openOn cursor path content cs).savedBy as) := by
  induction as generalizing content cs with
  | nil =>
      rw [savedBy, Journal.text_nil, List.append_nil, List.append_nil]
      rfl
  | cons a as ih =>
      have hkeeps : (openOn cursor path content cs).Keeps path content cs :=
        ⟨rfl, holds_openOn cursor path content cs, hn⟩
      obtain ⟨hnow, hrest⟩ := ht
      obtain ⟨cause, hres, hlog⟩ | ⟨c, hc, -, hres, hlog⟩ := hkeeps.save a
      · rw [hlog] at hrest
        rw [saveAll_cons, savedBy_of_error hres, hlog]
        exact ih hn hrest
      · rw [add_openOn cursor path content _ cs hc hnow] at hlog
        rw [hlog] at hrest
        rw [saveAll_cons, savedBy_of_ok hres, hlog, Journal.text_append, ← List.append_assoc,
          ← List.append_assoc]
        exact ih (hkeeps.append_distinct hc.unused) hrest

/-! ### Reopening -/

/-- The log that is restored from the file of another, after any saves on that, answers as the other
does, up to how numbers are held in the data of what was saved.  If that was settled, it is the
other log. -/
theorem reopened_log_answers_alike (h : (restore cursor { path, entry }).result = .ok log)
    {as : List Attempt} (hl : Legible as) (ht : log.Stampable as) :
    let first := log.saveAll as
    ∃ second, (restore cursor { path, entry := .file first.file }).result = .ok second ∧
      (∀ r, (second.list r).map (Page.map Command.settle) =
        (first.list r).map (Page.map Command.settle)) ∧
      (∀ id, (second.find id).map Command.settle = (first.find id).map Command.settle) ∧
      (∀ i, (second.ofInstance i).map Command.settle = (first.ofInstance i).map Command.settle) ∧
      (∀ i after limit, (second.ofInstanceAfter i after limit).map Command.settle =
        (first.ofInstanceAfter i after limit).map Command.settle) ∧
      second.size = first.size ∧
      (∀ ids now room r,
        (second.save ids now room r).result = (first.save ids now room r).result) ∧
      ((∀ c ∈ log.savedBy as, c.settle = c) → second = first) := by
  intro first
  obtain ⟨cs, hcs⟩ := reopens_of_restore h
  obtain ⟨-, -, -, -, hn, hlog⟩ := hcs.base
  obtain ⟨second, hsecond⟩ := hcs.saveAll hl
  obtain ⟨-, -, -, -, -, hsecond'⟩ := hsecond.base
  have hfile : (log.saveAll as).file = log.file ++ text (log.savedBy as) :=
    file_of_journal (hcs.keeps.saveAll hl).1.journal
  have hfirst : first = openOn cursor path (log.saveAll as).file (cs ++ log.savedBy as) := by
    rw [hlog] at ht
    have hall := saveAll_openOn hn ht
    rwa [← hlog, ← hfile] at hall
  -- what was read at the opening is settled already, so only the saved commands change
  have hsettled : (cs ++ (log.savedBy as).map Command.settle).map Command.settle =
      (cs ++ log.savedBy as).map Command.settle := by
    rw [List.map_append, List.map_append, List.map_map]
    exact congrArg _ (List.map_congr_left fun c _ => c.settle_settle)
  have halike : second.Alike first := by
    rw [hsecond', hfirst]
    exact alike_openOn cursor path _ hsettled
  refine ⟨second, hsecond.result, halike.list, halike.find, halike.ofInstance,
    halike.ofInstanceAfter, halike.size, halike.save_result, fun hs => ?_⟩
  rw [hsecond', hfirst, List.map_congr_left hs, List.map_id']

theorem stampable_sampleAttempts : sample.Stampable sampleAttempts := by
  refine ⟨?_, ?_, trivial⟩
  · intro t ht
    cases ht
  · intro t ht _
    cases ht
    decide

/-- The data of both commands is an empty object, which is settled. -/
theorem reopened_sample :
    let first := sample.saveAll sampleAttempts
    (restore .plain { path := [0x6a], entry := .file first.file }).result = .ok first := by
  intro first
  obtain ⟨second, hsecond, -, -, -, -, -, -, hsettled⟩ :=
    reopened_log_answers_alike restore_sample legible_sampleAttempts stampable_sampleAttempts
  have hs : ∀ c ∈ sample.savedBy sampleAttempts, c.settle = c := by
    intro c hc
    rcases List.mem_pair.mp hc with rfl | rfl <;> rfl
  rwa [hsettled hs] at hsecond

end CommandLog

end FleetControl
