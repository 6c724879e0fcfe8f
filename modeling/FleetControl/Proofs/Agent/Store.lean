import FleetControl.Agent.Store
import FleetControl.Proofs.Page.Listing
import FleetControl.Proofs.Table.Sharded
import Mathlib.Logic.Function.Basic

/-!
# The agent store — what changes do to the records

`AgentStore.carrier` is the connection that the record of an instance names.  A report sets it, and
the close of a connection clears it if it is the one named.  Every record stands under its own
instance id (`AgentStore.Keyed`), so agents are listed in the order of these
(`AgentStore.Keyed.list_ascending`).

All that is ever done to the store is a change of one record (`AgentStore.change`).  Two changes for
different connections can be made in either order, unless both are reports of one instance
(`AgentStore.change_comm`).
-/

namespace FleetControl.AgentStore

variable {s s' : AgentStore} {r : AgentReport} {a : Agent}

/-- The connection that the record of an instance names, if there is a record. -/
def carrier (s : AgentStore) (i : Bytes) : Option (Option Bytes) :=
  (s.agents.get? i).map (·.connection)

/-- Every record stands under its own instance id. -/
def Keyed (s : AgentStore) : Prop := ∀ i a, s.agents.get? i = some a → a.instanceId = i

theorem find_eq_ok_iff {i : Bytes} : s.find i = .ok a ↔ s.agents.get? i = some a := by
  rw [find]
  cases s.agents.get? i <;> simp

theorem carrier_of_find {i : Bytes} (h : s.find i = .ok a) : s.carrier i = some a.connection := by
  rw [carrier, find_eq_ok_iff.mp h, Option.map_some]

theorem find_of_carrier {i : Bytes} {c : Option Bytes} (h : s.carrier i = some c) :
    ∃ a, s.find i = .ok a ∧ a.connection = c := by
  obtain ⟨a, hg, hc⟩ := Option.map_eq_some_iff.mp h
  exact ⟨a, by rw [find, hg], hc⟩

theorem Keyed.instanceId_of_find {i : Bytes} (h : s.Keyed) (hf : s.find i = .ok a) :
    a.instanceId = i :=
  h i a (find_eq_ok_iff.mp hf)

/-- A report of an instance with an id is recorded. -/
theorem report_eq (h : r.instanceId ≠ []) :
    s.report r = .ok (applyReport (s.agents.get? r.instanceId) r,
      { s with agents :=
          s.agents.insert r.instanceId (applyReport (s.agents.get? r.instanceId) r) }) := by
  rw [report, if_neg fun e => h (List.isEmpty_iff.mp e)]

/-- Only an instance with an id has its report recorded. -/
theorem report_ok (h : s.report r = .ok (a, s')) :
    a = applyReport (s.agents.get? r.instanceId) r ∧
      s' = { s with agents := s.agents.insert r.instanceId a } := by
  rw [report] at h
  split at h
  · cases h
  · cases h
    exact ⟨rfl, rfl⟩

theorem carrier_report (h : s.report r = .ok (a, s')) :
    s'.carrier = Function.update s.carrier r.instanceId (some (some r.connection)) := by
  obtain ⟨rfl, rfl⟩ := report_ok h
  funext i
  simp only [carrier, Sharded.get?_insert, Function.update_apply]
  split <;> rfl

/-- A report is found again under its instance. -/
theorem find_report (h : s.report r = .ok (a, s')) : s'.find r.instanceId = .ok a := by
  obtain ⟨-, rfl⟩ := report_ok h
  simp only [find, Sharded.get?_insert, if_pos]

theorem Keyed.report (hs : s.Keyed) (h : s.report r = .ok (a, s')) : s'.Keyed := by
  obtain ⟨rfl, rfl⟩ := report_ok h
  intro i a' ha
  simp only [Sharded.get?_insert] at ha
  split at ha
  · rename_i hi
    cases ha
    rw [hi]
    cases hk : s.agents.get? r.instanceId with
    | none => rfl
    | some known => exact hs _ known hk
  · exact hs i a' ha

/-- A record names no connection any more if it named the one that was closed. -/
theorem carrier_disconnect (s : AgentStore) (i conn : Bytes) :
    (s.disconnect i conn).carrier =
      Function.update s.carrier i
        ((s.carrier i).map fun c => if c = some conn then none else c) := by
  funext j
  simp only [carrier, disconnect, Sharded.get?_modify, Function.update_apply]
  split
  · rename_i hj
    subst hj
    rw [Option.map_map, Option.map_map]
    congr 1
    funext a
    simp only [Function.comp_apply, Agent.dropConnection, beq_iff_eq]
    split <;> rfl
  · rfl

theorem Keyed.disconnect (hs : s.Keyed) (i conn : Bytes) : (s.disconnect i conn).Keyed := by
  intro j a ha
  simp only [AgentStore.disconnect, Sharded.get?_modify] at ha
  split at ha
  · obtain ⟨b, hb, rfl⟩ := Option.map_eq_some_iff.mp ha
    rw [← hs j b hb, Agent.dropConnection]
    split <;> rfl
  · exact hs j a ha

/-! ### Listing -/

theorem cursor_report (h : s.report r = .ok (a, s')) : s'.cursor = s.cursor := by
  obtain ⟨-, rfl⟩ := report_ok h
  rfl

/-- Agents that satisfy a test are listed in the order of their instance ids. -/
theorem Keyed.list_ascending (hs : s.Keyed) (keep : Agent → Bool) :
    PagesAscending Agent.instanceId s.cursor (s.listWhere keep) := by
  refine ⟨_, List.Pairwise.filter _ (Table.values_pairwise fun i a ha => ?_), fun _ => rfl⟩
  rw [Sharded.get?_toTable] at ha
  exact hs i a ha

/-! ### What one event does to a record -/

/-- What is done to the record of an instance. -/
inductive Change where
  | keep
  | report (r : AgentReport)
  | drop (instanceId conn : Bytes)

/-- The instance whose record is changed. -/
def Change.instanceId : Change → Bytes
  | .keep => []
  | .report r => r.instanceId
  | .drop instanceId _ => instanceId

/-- The connection that a record is changed for. -/
def Change.conn? : Change → Option Bytes
  | .keep => none
  | .report r => some r.connection
  | .drop _ conn => some conn

/-- The record afterwards.  Without an id there is none. -/
def Change.apply : Change → Option Agent → Option Agent
  | .keep, a => a
  | .report r, a => if r.instanceId = [] then a else some (applyReport a r)
  | .drop _ conn, a => a.map (Agent.dropConnection · conn)

/-- The store with a change made to one record. -/
def change (s : AgentStore) (d : Change) : AgentStore :=
  { s with agents := s.agents.alter d.instanceId d.apply }

theorem change_keep (s : AgentStore) : s.change .keep = s := by
  rw [change, Sharded.alter_eq_self rfl]

theorem change_report (s : AgentStore) (r : AgentReport) :
    s.change (.report r) = match s.report r with
      | .ok (_, s') => s'
      | .error _ => s := by
  by_cases h : r.instanceId = []
  · have hself : (Change.report r).apply (s.agents.get? r.instanceId) =
        s.agents.get? r.instanceId := if_pos h
    rw [report, if_pos (List.isEmpty_iff.mpr h)]
    exact congrArg (AgentStore.mk s.cursor) (Sharded.alter_eq_self hself)
  · rw [report_eq h, change]
    exact congrArg (AgentStore.mk s.cursor) (Sharded.alter_congr (if_neg h))

theorem dropConnection_eq (a : Agent) (conn : Bytes) :
    Agent.dropConnection a conn = { a with connection := a.connection.filter (· != conn) } := by
  obtain ⟨i, description, configHash, group, connection, firstSeen, lastReported⟩ := a
  rw [Agent.dropConnection]
  cases connection with
  | none => rfl
  | some c => by_cases h : c = conn <;> simp [h, Option.filter]

theorem dropConnection_comm (a : Agent) (conn conn' : Bytes) :
    Agent.dropConnection (Agent.dropConnection a conn) conn' =
      Agent.dropConnection (Agent.dropConnection a conn') conn := by
  simp only [dropConnection_eq, Option.filter_filter, Bool.and_comm]

/-- A report names another connection than the one that is dropped, whatever was named before. -/
theorem applyReport_dropConnection {conn : Bytes} (h : r.connection ≠ conn) (a : Option Agent) :
    applyReport (a.map (Agent.dropConnection · conn)) r =
      Agent.dropConnection (applyReport a r) conn := by
  have hdrop : Agent.dropConnection (applyReport a r) conn = applyReport a r := by
    rw [Agent.dropConnection, if_neg]
    simpa [applyReport] using h
  rw [hdrop]
  cases a with
  | none => rfl
  | some a =>
      rw [Option.map_some, Agent.dropConnection]
      split <;> rfl

/-- Changes for different connections commute, unless both are reports of one instance. -/
theorem change_comm {d d' : Change} (hc : ∀ conn, d.conn? = some conn → d'.conn? ≠ some conn)
    (hr : ∀ r r', d = .report r → d' = .report r' → r.instanceId ≠ r'.instanceId)
    (s : AgentStore) : (s.change d).change d' = (s.change d').change d := by
  have hdrop {r : AgentReport} {i conn : Bytes} (hne : r.connection ≠ conn) (a : Option Agent) :
      (Change.report r).apply ((Change.drop i conn).apply a) =
        (Change.drop i conn).apply ((Change.report r).apply a) := by
    simp only [Change.apply]
    split
    · rfl
    · rw [applyReport_dropConnection hne, Option.map_some]
  refine congrArg (AgentStore.mk s.cursor) (Sharded.alter_comm (fun hi a => ?_) s.agents)
  cases d with
  | keep => rfl
  | report r =>
      cases d' with
      | keep => rfl
      | report r' => exact absurd hi (hr r r' rfl rfl)
      | drop i conn => exact hdrop (fun e => hc _ rfl (congrArg some e.symm)) a
  | drop i conn =>
      cases d' with
      | keep => rfl
      | report r => exact (hdrop (fun e => hc _ rfl (congrArg some e)) a).symm
      | drop i' conn' =>
          simp only [Change.apply, Option.map_map]
          congr 1
          funext a
          exact (dropConnection_comm a conn conn').symm

end FleetControl.AgentStore
