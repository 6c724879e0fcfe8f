import FleetControl.Proofs.Agent.Roster
import FleetControl.Proofs.Connection.Directory

/-!
# Stores without shards

Connections and agents are kept in shards that a hash selects.  Whatever the hash and however many
shards there are, a registry is a directory and an agent store is a roster (`shards_show_nowhere`):
after any calls both answer the next one alike and show the same.  Only which of the connections of
an instance is shown depends on the shards.
-/

namespace FleetControl

theorem Registry.mirrors_empty (cursor : Cursor) (livenessMs : Int64) (hash : Bytes → Nat) {n : Nat}
    (hn : 0 < n) :
    Mirrors ⟨cursor, livenessMs, .empty hash n hn⟩ { cursor, livenessMs } :=
  ⟨rfl, rfl, Sharded.get?_empty hash n hn⟩

theorem AgentStore.mirrors_empty (cursor : Cursor) (hash : Bytes → Nat) {n : Nat} (hn : 0 < n) :
    Mirrors ⟨cursor, .empty hash n hn⟩ { cursor } :=
  ⟨rfl, Sharded.get?_empty hash n hn, nofun⟩

/-- With any hash and any number of shards there is an empty registry, and after any calls it
answers and shows what a directory does after these calls, which lists a connection once, in the
order of ids, and in which a connection stays bound to an instance for as long as it is open.  There
is an empty agent store, and after any calls whose reports are not from before the epoch it answers
and shows what a roster does, which lists an agent once, in the order of ids.  A call that is refused
changes nothing. -/
theorem shards_show_nowhere (cursor : Cursor) (livenessMs : Int64) (hash : Bytes → Nat) (n : Nat)
    (hn : 0 < n) :
    (∃ r₀, Registry.setup cursor livenessMs hash n = .ok r₀ ∧ ∀ calls,
      let r := r₀.after calls
      let d := Directory.after { cursor, livenessMs } calls
      r.Agrees d ∧ (∀ now, Ascends Connection.id (d.connections now)) ∧
        (∀ c cause, (r.call c).1 = .error cause → (r.call c).2 = r) ∧
        ∀ conn p i, d.pasts.get? conn = some p → p.bound = some i →
          ∀ later, .unregister conn ∉ later →
            ∃ p', (d.after later).pasts.get? conn = some p' ∧ p'.bound = some i) ∧
    ∃ s₀, AgentStore.setup cursor hash n = .ok s₀ ∧ ∀ calls, (∀ c ∈ calls, c.IsTimely) →
      let s := s₀.after calls
      let x := Roster.after { cursor } calls
      s.Agrees x ∧ Ascends Agent.instanceId x.records ∧
        ∀ c cause, (s.call c).1 = .error cause → (s.call c).2 = s := by
  refine ⟨⟨⟨cursor, livenessMs, .empty hash n hn⟩, dif_pos hn, fun calls => ?_⟩,
    ⟨cursor, .empty hash n hn⟩, dif_pos hn, fun calls hcalls => ?_⟩
  · have h := (Registry.mirrors_empty cursor livenessMs hash hn).after calls
    exact ⟨h.agrees, Directory.connections_ascending _, fun _ _ => Registry.call_of_error,
      fun _ _ _ hp hb _ => Directory.bound_after hp hb⟩
  · have h := (AgentStore.mirrors_empty cursor hash hn).after hcalls
    exact ⟨h.agrees, h.records_ascending, fun _ _ => AgentStore.call_of_error⟩

/-- With its length as the hash of an id, connections 1 and 2 2 are in different shards.  A touch
from before does not count, and a second binding is refused.  Instance 7 is described by its first
report, and the close of the connection that it came by is too late to matter. -/
theorem stores_in_three_shards :
    let calls : List Registry.Call := [.register [2, 2] 5, .register [1] 5, .touch [1] 9,
      .touch [1] 3, .bind [1] [7]]
    let described : Description := { identifying := Table.ofList [([3], [4])] }
    let reports : List AgentStore.Call := [
      .report { instanceId := [7], connection := [1], description := some described, time := 6 },
      .report { instanceId := [7], connection := [2, 2], configHash := some [5], time := 4 },
      .disconnect [7] [1]]
    (∃ r₀, Registry.setup .plain 60000 List.length 3 = .ok r₀ ∧
      ((r₀.after calls).call (.bind [1] [8])).1 = .error (.boundElsewhere [1] [7]) ∧
      (r₀.after calls).find [1] 10 = .ok ⟨[1], some [7], 9, true⟩ ∧
      (r₀.after calls).list {} 10 =
        .ok { items := [⟨[1], some [7], 9, true⟩, ⟨[2, 2], none, 5, true⟩] } ∧
      (r₀.after calls).size = 2) ∧
    ∃ s₀, AgentStore.setup .plain List.length 3 = .ok s₀ ∧
      (s₀.after reports).find [7] = .ok {
        instanceId := [7], description := described, configHash := some [5],
        connection := some [2, 2], firstSeen := 6, lastReported := 6 } ∧
      (s₀.after reports).size = 1 := by
  intro calls described reports
  obtain ⟨⟨r₀, hr, hregistry⟩, s₀, hs, hagents⟩ :=
    shards_show_nowhere .plain 60000 List.length 3 (by decide)
  obtain ⟨hr', -⟩ := hregistry calls
  obtain ⟨hs', -⟩ := hagents reports (by simp [reports, AgentStore.Call.IsTimely]; decide)
  refine ⟨⟨r₀, hr, ?_, ?_, ?_, ?_⟩, s₀, hs, ?_, ?_⟩
  · rw [hr'.call]
    decide +kernel
  · rw [hr'.find]
    decide +kernel
  · rw [hr'.list]
    decide +kernel
  · rw [hr'.size]
    decide +kernel
  · rw [hs'.find]
    decide +kernel
  · rw [hs'.size]
    decide +kernel

end FleetControl
