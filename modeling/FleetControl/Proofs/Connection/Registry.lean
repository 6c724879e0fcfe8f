import FleetControl.Connection.Registry
import FleetControl.Proofs.Page.Listing
import FleetControl.Proofs.Table.Sharded
import Mathlib.Logic.Function.Basic

/-!
# The connection registry — what changes do to the bindings

`Registry.binding` is what the registry holds of a connection, apart from when it was heard from:
nothing, that it is open, or the instance that it carries.  A change updates it at one connection,
and hearing from a connection does not change it.  What a change does, and whether it is refused,
depends on that connection alone (`Registry.register_local`, `Registry.bind_local`).  However the
registry was changed, it lists connections in the order of their ids (`Registry.list_ascending`).
-/

namespace FleetControl.Registry

variable {r r' : Registry} {conn i : Bytes} {now : Instant}

/-- The instance that a connection carries, once that is known, if the connection is open. -/
def binding (r : Registry) (conn : Bytes) : Option (Option Bytes) :=
  (r.entries.get? conn).map (·.instanceId)

theorem binding_touch (r : Registry) (conn : Bytes) (now : Instant) :
    (r.touch conn now).binding = r.binding := by
  funext other
  simp only [binding, touch, Sharded.get?_modify]
  split
  · rw [Option.map_map]; rfl
  · rfl

theorem binding_unregister (r : Registry) (conn : Bytes) :
    (r.unregister conn).binding = Function.update r.binding conn none := by
  funext other
  simp only [binding, unregister, Sharded.get?_erase, Function.update_apply]
  split <;> rfl

/-- A connection that is registered was not open. -/
theorem binding_register (h : r.register conn now = .ok r') :
    r.binding conn = none ∧ r'.binding = Function.update r.binding conn (some none) := by
  rw [register] at h
  split at h
  · cases h
  split at h
  · cases h
  rename_i hc
  cases h
  constructor
  · rw [binding, Option.map_eq_none_iff]
    exact Option.not_isSome_iff_eq_none.mp hc
  · funext other
    simp only [binding, Sharded.get?_insert, Function.update_apply]
    split <;> rfl

/-- A connection is bound to an instance with an id, whether it was before or not. -/
theorem binding_bind (h : r.bind conn i = .ok r') :
    i ≠ [] ∧ r'.binding = Function.update r.binding conn (some (some i)) := by
  rw [bind] at h
  split at h
  · cases h
  rename_i hi
  refine ⟨fun e => hi (List.isEmpty_iff.mpr e), ?_⟩
  cases he : r.entries.get? conn with
  | none => rw [he] at h; cases h
  | some entry =>
      simp only [he] at h
      cases hb : entry.instanceId with
      | none =>
          rw [hb] at h
          cases h
          funext other
          simp only [binding, Sharded.get?_insert, Function.update_apply]
          split <;> rfl
      | some bound =>
          simp only [hb] at h
          split at h
          · rename_i hbound
            cases h
            -- it was bound to this instance before
            have hconn : r.binding conn = some (some i) := by
              rw [binding, he, Option.map_some, hb, beq_iff_eq.mp hbound]
            rw [← hconn, Function.update_eq_self]
          · cases h

/-! ### One connection at a time -/

/-- The registry with this at one connection. -/
def set (r : Registry) (conn : Bytes) (entry : Option Entry) : Registry :=
  { r with entries := r.entries.alter conn fun _ => entry }

theorem set_eq_self (r : Registry) (conn : Bytes) : r.set conn (r.entries.get? conn) = r := by
  rw [set, Sharded.alter_eq_self rfl]

theorem set_set (r : Registry) (conn : Bytes) (entry entry' : Option Entry) :
    (r.set conn entry).set conn entry' = r.set conn entry' := by
  rw [set, set, set, Sharded.alter_alter]

theorem get?_set (r : Registry) (conn : Bytes) (entry : Option Entry) :
    (r.set conn entry).entries.get? conn = entry :=
  Sharded.get?_alter_self _ _ _

theorem touch_eq_set (r : Registry) (conn : Bytes) (now : Instant) :
    r.touch conn now = r.set conn ((r.entries.get? conn).map fun e =>
      { e with lastHeard := e.lastHeard.later now }) :=
  congrArg (Registry.mk r.cursor r.livenessMs) (Sharded.alter_congr rfl)

/-- Registering looks at and changes the one connection. -/
theorem register_local (h : r'.entries.get? conn = r.entries.get? conn) (now : Instant) :
    r'.register conn now =
      (r.register conn now).map fun out => r'.set conn (out.entries.get? conn) := by
  rw [register, register, Sharded.contains, Sharded.contains, h]
  split
  · rfl
  split
  · rfl
  · rw [Except.map, Sharded.get?_insert, if_pos rfl]
    rfl

/-- Binding looks at and changes the one connection. -/
theorem bind_local (h : r'.entries.get? conn = r.entries.get? conn) (i : Bytes) :
    r'.bind conn i = (r.bind conn i).map fun out => r'.set conn (out.entries.get? conn) := by
  rw [bind, bind, h]
  split
  · rfl
  cases he : r.entries.get? conn with
  | none => rfl
  | some entry =>
      cases hb : entry.instanceId with
      | none =>
          simp only [hb, Except.map, Sharded.get?_insert, if_true]
          rfl
      | some bound =>
          simp only [hb]
          split
          · rw [Except.map, ← h, set_eq_self]
          · rfl

/-! ### Listing -/

theorem cursor_register (h : r.register conn now = .ok r') : r'.cursor = r.cursor := by
  rw [register] at h
  split at h
  · cases h
  split at h
  · cases h
  cases h
  rfl

theorem cursor_bind (h : r.bind conn i = .ok r') : r'.cursor = r.cursor := by
  rw [bind] at h
  split at h
  · cases h
  split at h
  · cases h
  split at h
  · split at h
    · cases h
      rfl
    · cases h
  · cases h
    rfl

/-- Connections are listed in the order of their ids. -/
theorem list_ascending (r : Registry) (now : Instant) :
    PagesAscending Connection.id r.cursor (r.list · now) := by
  refine ⟨r.entries.toTable.toList.map fun e => r.view e.1 e.2 now, ?_, fun _ => rfl⟩
  rw [Ascends, List.pairwise_map]
  exact r.entries.toTable.ascending

end FleetControl.Registry
