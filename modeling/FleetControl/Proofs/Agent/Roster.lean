import FleetControl.Proofs.Agent.Store
import FleetControl.Proofs.Connection.Directory

/-!
# The roster — what an agent store keeps, without shards

A roster is one table of everything that instances reported: their first report, the later ones, and
the connections that were closed since the last.  A record is made of all of these at once
(`Dossier.record`), where the store merges them report by report (`Dossier.record_report`).  A store
`Mirrors` a roster if its records are the ones made so; then both answer every call alike
(`Mirrors.call`) and show the same (`Mirrors.agrees`).

A record begins at the epoch, so the time of a report from before would not count.
-/

namespace FleetControl

/-- What an instance reported. -/
structure Dossier where
  first : AgentReport
  later : List AgentReport := []
  /-- The connections that were closed for it since its last report. -/
  closed : List Bytes := []

namespace Dossier

/-- All reports on an agent, in order. -/
def reports (d : Dossier) : List AgentReport := d.first :: d.later

def last (d : Dossier) : AgentReport := d.later.getLast?.getD d.first

/-- The record of the reports: when the first came and the latest time of any, what was described
and configured last, and the group and the connection of the last, unless that was closed since. -/
def record (d : Dossier) : Agent where
  instanceId := d.first.instanceId
  description := (d.reports.filterMap AgentReport.description).getLast?.getD {}
  configHash := (d.reports.filterMap AgentReport.configHash).getLast?
  group := d.last.group
  connection := if d.last.connection ∈ d.closed then none else some d.last.connection
  firstSeen := d.first.time
  lastReported := (d.later.map AgentReport.time).foldl max d.first.time

/-- With one more report. -/
def report (d : Dossier) (r : AgentReport) : Dossier :=
  { d with later := d.later ++ [r], closed := [] }

/-- With a connection that is closed. -/
def close (d : Dossier) (conn : Bytes) : Dossier := { d with closed := d.closed ++ [conn] }

theorem getLast?_filterMap_concat {α β : Type} (f : α → Option β) (l : List α) (a : α) :
    ((l ++ [a]).filterMap f).getLast? = (f a).or (l.filterMap f).getLast? := by
  rw [List.filterMap_append, List.getLast?_append]
  cases h : f a <;> simp [h]

/-- A record is merged with a report as if it was made of all reports. -/
theorem record_report (d : Dossier) (r : AgentReport) :
    (d.report r).record = AgentStore.applyReport (some d.record) r := by
  have hreports : (d.report r).reports = d.reports ++ [r] := rfl
  have hlast : (d.report r).last = r := by
    rw [last, report, List.getLast?_concat]
    rfl
  have hdescription : (d.report r).record.description =
      r.description.getD d.record.description := by
    rw [record, hreports, getLast?_filterMap_concat]
    cases r.description <;> rfl
  have hconfigHash : (d.report r).record.configHash = r.configHash.or d.record.configHash :=
    getLast?_filterMap_concat AgentReport.configHash d.reports r
  have htime : (d.report r).record.lastReported = d.record.lastReported.later r.time := by
    rw [Instant.later_eq_max, record, report, List.map_append]
    exact List.foldl_concat _ _ _ _
  rw [AgentStore.applyReport, Option.getD_some, ← hdescription, ← hconfigHash, ← htime]
  simp only [record, hlast]
  rfl

/-- The first report makes the record, if its time counts. -/
theorem record_first {r : AgentReport} (h : Instant.epoch ≤ r.time) :
    ({ first := r } : Dossier).record = AgentStore.applyReport none r := by
  have htime : Instant.epoch.later r.time = r.time := by
    rw [Instant.later_eq_max]
    exact if_pos h
  rw [AgentStore.applyReport, Option.getD_none, htime]
  cases hd : r.description <;> cases hc : r.configHash <;> simp [record, reports, last, hd, hc]

/-- A closed connection is dropped from the record. -/
theorem record_close (d : Dossier) (conn : Bytes) :
    (d.close conn).record = AgentStore.Agent.dropConnection d.record conn := by
  have hconnection : (d.close conn).record.connection =
      d.record.connection.filter (· != conn) := by
    have hclosed : (d.close conn).closed = d.closed ++ [conn] := rfl
    have hlast : (d.close conn).last = d.last := rfl
    simp only [record, hclosed, hlast, List.mem_append, List.mem_singleton]
    by_cases hc : d.last.connection ∈ d.closed
    · rw [if_pos hc, if_pos (.inl hc)]
      rfl
    · rw [if_neg hc]
      by_cases he : d.last.connection = conn <;> simp [hc, he, Option.filter]
  rw [AgentStore.dropConnection_eq, ← hconnection]
  rfl

end Dossier

/-- What may be done to an agent store. -/
inductive AgentStore.Call where
  | report (r : AgentReport)
  | disconnect (instanceId conn : Bytes)

/-- A report is not from before the epoch. -/
def AgentStore.Call.IsTimely : Call → Prop
  | .report r => Instant.epoch ≤ r.time
  | .disconnect .. => True

namespace AgentStore

/-- What a call answers, a record if it makes one, and the store afterwards. -/
def call (s : AgentStore) : Call → Except Refusal (Option Agent) × AgentStore
  | .report r =>
    match s.report r with
    | .ok (a, s') => (.ok (some a), s')
    | .error cause => (.error cause, s)
  | .disconnect i conn => (.ok none, s.disconnect i conn)

/-- The store after some calls. -/
def after (s : AgentStore) (calls : List Call) : AgentStore :=
  calls.foldl (fun s c => (s.call c).2) s

/-- A call that is refused changes nothing. -/
theorem call_of_error {s : AgentStore} {c : Call} {cause : Refusal}
    (h : (s.call c).1 = .error cause) : (s.call c).2 = s := by
  cases c with
  | disconnect i conn => cases h
  | report r =>
      cases hr : s.report r with
      | ok out => simp only [call, hr] at h; cases h
      | error => simp only [call, hr]

end AgentStore

/-- What was reported of all agents, which no shards divide. -/
structure Roster where
  cursor : Cursor
  dossiers : Table Dossier := ∅

namespace Roster

/-- What a call answers, and the roster afterwards. -/
def call (x : Roster) : AgentStore.Call → Except AgentStore.Refusal (Option Agent) × Roster
  | .report r =>
    if r.instanceId = [] then (.error .noInstanceId, x)
    else
      let d := match x.dossiers.get? r.instanceId with
        | none => { first := r }
        | some known => known.report r
      (.ok (some d.record), { x with dossiers := x.dossiers.insert r.instanceId d })
  | .disconnect i conn => (.ok none, { x with dossiers := x.dossiers.modify i (·.close conn) })

def after (x : Roster) (calls : List AgentStore.Call) : Roster :=
  calls.foldl (fun x c => (x.call c).2) x

/-- What is shown of an agent. -/
def find (x : Roster) (i : Bytes) : Except AgentStore.Refusal Agent :=
  match x.dossiers.get? i with
  | some d => .ok d.record
  | none => .error (.notFound i)

/-- The records by instance id. -/
def records (x : Roster) : List Agent := x.dossiers.values.map Dossier.record

end Roster

namespace AgentStore

variable {s : AgentStore} {x : Roster}

/-- A store that stands for a roster. -/
structure Mirrors (s : AgentStore) (x : Roster) : Prop where
  cursor : s.cursor = x.cursor
  agents : ∀ i, s.agents.get? i = (x.dossiers.get? i).map Dossier.record
  keyed : ∀ i d, x.dossiers.get? i = some d → d.first.instanceId = i

/-! ### Calls -/

/-- An agent that is set in both stays mirrored. -/
theorem Mirrors.insert {i : Bytes} {d : Dossier} (h : s.Mirrors x) (hd : d.first.instanceId = i) :
    Mirrors { s with agents := s.agents.insert i d.record }
      { x with dossiers := x.dossiers.insert i d } := by
  refine ⟨h.cursor, fun j => ?_, fun j d' hj => ?_⟩
  · rw [Sharded.get?_insert, Table.get?_insert, h.agents]
    split <;> rfl
  · rw [Table.get?_insert] at hj
    split at hj
    · rename_i e
      cases hj
      exact hd.trans e.symm
    · exact h.keyed j d' hj

/-- A report is answered alike and mirrored. -/
theorem Mirrors.report {r : AgentReport} (h : s.Mirrors x) (ht : Instant.epoch ≤ r.time) :
    (s.call (.report r)).1 = (x.call (.report r)).1 ∧
      (s.call (.report r)).2.Mirrors (x.call (.report r)).2 := by
  by_cases hi : r.instanceId = []
  · have hs : s.report r = .error .noInstanceId := if_pos (List.isEmpty_iff.mpr hi)
    refine ⟨?_, ?_⟩
    · simp only [AgentStore.call, Roster.call, hs, if_pos hi]
    · simpa only [AgentStore.call, Roster.call, hs, if_pos hi] using h
  · simp only [AgentStore.call, Roster.call, report_eq hi, if_neg hi, h.agents]
    cases hd : x.dossiers.get? r.instanceId with
    | none =>
        rw [Option.map_none, ← Dossier.record_first ht]
        exact ⟨rfl, h.insert rfl⟩
    | some d =>
        rw [Option.map_some, ← Dossier.record_report]
        exact ⟨rfl, h.insert (h.keyed _ d hd)⟩

/-- A close is mirrored. -/
theorem Mirrors.disconnect (h : s.Mirrors x) (i conn : Bytes) :
    (s.call (.disconnect i conn)).2.Mirrors (x.call (.disconnect i conn)).2 := by
  refine ⟨h.cursor, fun j => ?_, fun j d hj => ?_⟩
  · simp only [AgentStore.call, Roster.call, AgentStore.disconnect, Sharded.get?_modify,
      Table.modify, Table.get?_alter, h.agents]
    split
    · cases x.dossiers.get? j with
      | none => rfl
      | some d => exact congrArg some (d.record_close conn).symm
    · rfl
  · simp only [Roster.call, Table.modify, Table.get?_alter] at hj
    split at hj
    · obtain ⟨known, hknown, rfl⟩ := Option.map_eq_some_iff.mp hj
      exact h.keyed j known hknown
    · exact h.keyed j d hj

/-- A call is answered alike, and what it does is the same. -/
theorem Mirrors.call {c : Call} (h : s.Mirrors x) (hc : c.IsTimely) :
    (s.call c).1 = (x.call c).1 ∧ (s.call c).2.Mirrors (x.call c).2 := by
  cases c with
  | report r => exact h.report hc
  | disconnect i conn => exact ⟨rfl, h.disconnect i conn⟩

/-- Calls keep a store mirrored. -/
theorem Mirrors.after {calls : List Call} (h : s.Mirrors x) (hc : ∀ c ∈ calls, c.IsTimely) :
    (s.after calls).Mirrors (x.after calls) := by
  induction calls generalizing s x with
  | nil => exact h
  | cons c calls ih =>
      obtain ⟨hfirst, hrest⟩ := List.forall_mem_cons.mp hc
      exact ih (h.call hfirst).2 hrest

/-! ### What is shown -/

/-- A store answers and shows what a roster does. -/
structure Agrees (s : AgentStore) (x : Roster) : Prop where
  call : ∀ c : Call, c.IsTimely → (s.call c).1 = (x.call c).1
  find : ∀ i, s.find i = x.find i
  list : ∀ request, s.list request = paginate Agent.instanceId x.records x.cursor request
  listSelected : ∀ selector request, s.listSelected selector request =
    paginate Agent.instanceId (x.records.filter fun a => selector.accepts a.description) x.cursor
      request
  size : s.size = x.dossiers.size

/-- All shards together hold the records of the roster. -/
theorem Mirrors.toTable_eq (h : s.Mirrors x) : s.agents.toTable = x.dossiers.map Dossier.record :=
  Table.ext_get? fun i => by rw [Sharded.get?_toTable, Table.get?_map, h.agents]

/-- A mirrored store lists the same, whatever it is asked to keep. -/
theorem Mirrors.listWhere_eq (h : s.Mirrors x) (keep : Agent → Bool) (request : PageRequest) :
    s.listWhere keep request =
      paginate Agent.instanceId (x.records.filter keep) x.cursor request := by
  have hvalues : s.agents.toTable.values = x.records := by
    rw [h.toTable_eq, Table.values, Table.map, List.map_map, Roster.records, Table.values,
      List.map_map]
    rfl
  rw [listWhere, hvalues, h.cursor]

/-- A mirrored store agrees with the roster in every question. -/
theorem Mirrors.agrees (h : s.Mirrors x) : s.Agrees x where
  call _ hc := (h.call hc).1
  find i := by
    rw [AgentStore.find, Roster.find, h.agents]
    cases x.dossiers.get? i <;> rfl
  list request := by
    rw [AgentStore.list, h.listWhere_eq, List.filter_true]
  listSelected selector request := h.listWhere_eq _ request
  size := by rw [AgentStore.size, ← Sharded.size_toTable, h.toTable_eq, Table.size_map]

/-- There is one record of every instance that reported, in the order of their ids. -/
theorem Mirrors.records_ascending (h : s.Mirrors x) : Ascends Agent.instanceId x.records := by
  rw [Ascends, Roster.records, List.pairwise_map]
  exact Table.values_pairwise h.keyed

end AgentStore

end FleetControl
