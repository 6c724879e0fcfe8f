import FleetControl.Proofs.Connection.Registry

/-!
# The directory — what a registry keeps, without shards

A directory is one table of what happened to the connections that are open: when each was
registered, what it was bound to, and all the times at which it was heard from.  It is what a
registry stands for.  A registry `Mirrors` a directory if its entries are what became of these pasts,
whatever shard they are in; then both answer every call alike (`Mirrors.call`) and show the same
(`Mirrors.agrees`).
-/

namespace FleetControl

/-- The later of two times is the larger. -/
theorem Instant.later_eq_max (a b : Instant) : a.later b = max a b := by
  have hmax : max a b = if a ≤ b then b else a := rfl
  rw [later, hmax]
  by_cases h : a < b
  · rw [if_pos h, if_pos (Int64.le_of_lt h)]
  · rw [if_neg h]
    split
    · rename_i hle
      exact Int64.le_antisymm hle (Int64.not_lt.mp h)
    · rfl

/-- What may be done to a registry. -/
inductive Registry.Call where
  | register (conn : Bytes) (now : Instant)
  | bind (conn instanceId : Bytes)
  | touch (conn : Bytes) (now : Instant)
  | unregister (conn : Bytes)
  deriving DecidableEq

namespace Registry

/-- The registry after a change that may be refused. -/
def keep (r : Registry) (result : Except Refusal Registry) : Except Refusal Unit × Registry :=
  match result with
  | .ok r' => (.ok (), r')
  | .error cause => (.error cause, r)

/-- What a call answers, and the registry afterwards. -/
def call (r : Registry) : Call → Except Refusal Unit × Registry
  | .register conn now => r.keep (r.register conn now)
  | .bind conn i => r.keep (r.bind conn i)
  | .touch conn now => (.ok (), r.touch conn now)
  | .unregister conn => (.ok (), r.unregister conn)

/-- The registry after some calls. -/
def after (r : Registry) (calls : List Call) : Registry := calls.foldl (fun r c => (r.call c).2) r

end Registry

/-- What happened to a connection since it was registered. -/
structure Past where
  registered : Instant
  /-- The instance that it was bound to. -/
  bound : Option Bytes := none
  /-- When it was heard from, in the order in which that was recorded. -/
  touches : List Instant := []

/-- When it was last heard from: the latest of all times. -/
def Past.lastHeard (p : Past) : Instant := p.touches.foldl max p.registered

/-- What becomes of a past in a registry. -/
def Past.entry (p : Past) : Registry.Entry := ⟨p.bound, p.lastHeard⟩

/-- A further touch counts if it is the latest. -/
theorem Past.lastHeard_append (p : Past) (now : Instant) :
    { p with touches := p.touches ++ [now] }.lastHeard = p.lastHeard.later now := by
  rw [Instant.later_eq_max]
  exact List.foldl_concat _ _ _ _

/-- What has happened to the connections that are open, which no shards divide. -/
structure Directory where
  cursor : Cursor
  livenessMs : Int64
  pasts : Table Past := ∅

namespace Directory

/-- What a call answers, and the directory afterwards. -/
def call (d : Directory) : Registry.Call → Except Registry.Refusal Unit × Directory
  | .register conn now =>
    if conn = [] then (.error .noConnectionId, d)
    else match d.pasts.get? conn with
      | some _ => (.error (.taken conn), d)
      | none => (.ok (), { d with pasts := d.pasts.insert conn { registered := now } })
  | .bind conn i =>
    if i = [] then (.error .noInstanceId, d)
    else match d.pasts.get? conn with
      | none => (.error (.notRegistered conn), d)
      | some p =>
        match p.bound with
        | none => (.ok (), { d with pasts := d.pasts.insert conn { p with bound := some i } })
        | some bound => (if bound = i then .ok () else .error (.boundElsewhere conn bound), d)
  | .touch conn now =>
    (.ok (), { d with pasts := d.pasts.modify conn fun p =>
      { p with touches := p.touches ++ [now] } })
  | .unregister conn => (.ok (), { d with pasts := d.pasts.erase conn })

def after (d : Directory) (calls : List Registry.Call) : Directory :=
  calls.foldl (fun d c => (d.call c).2) d

/-- A connection with a past at a time. -/
def view (d : Directory) (conn : Bytes) (p : Past) (now : Instant) : Connection :=
  ⟨conn, p.bound, p.lastHeard, now - p.lastHeard < d.livenessMs * 1000000⟩

/-- What is shown of a connection. -/
def find (d : Directory) (conn : Bytes) (now : Instant) : Except Registry.Refusal Connection :=
  match d.pasts.get? conn with
  | some p => .ok (d.view conn p now)
  | none => .error (.notFound conn)

/-- The connections by id. -/
def connections (d : Directory) (now : Instant) : List Connection :=
  d.pasts.toList.map fun e => d.view e.1 e.2 now

end Directory

namespace Registry

variable {r : Registry} {d : Directory} {conn i : Bytes} {now : Instant}

/-- A registry that stands for a directory. -/
structure Mirrors (r : Registry) (d : Directory) : Prop where
  cursor : r.cursor = d.cursor
  livenessMs : r.livenessMs = d.livenessMs
  entries : ∀ conn, r.entries.get? conn = (d.pasts.get? conn).map Past.entry

/-! ### Calls -/

/-- A connection that is set in both stays mirrored. -/
theorem Mirrors.insert (h : r.Mirrors d) (conn : Bytes) (p : Past) :
    Mirrors { r with entries := r.entries.insert conn p.entry }
      { d with pasts := d.pasts.insert conn p } := by
  refine ⟨h.cursor, h.livenessMs, fun other => ?_⟩
  rw [Sharded.get?_insert, Table.get?_insert, h.entries]
  split <;> rfl

/-- A registration is answered alike and mirrored. -/
theorem Mirrors.register (h : r.Mirrors d) (conn : Bytes) (now : Instant) :
    (r.call (.register conn now)).1 = (d.call (.register conn now)).1 ∧
      (r.call (.register conn now)).2.Mirrors (d.call (.register conn now)).2 := by
  simp only [Registry.call, Directory.call, Registry.register, List.isEmpty_iff, Sharded.contains,
    h.entries, Option.isSome_map]
  split
  · exact ⟨rfl, h⟩
  · cases hp : d.pasts.get? conn with
    | some p => exact ⟨rfl, h⟩
    | none => exact ⟨rfl, h.insert conn { registered := now }⟩

/-- A binding is answered alike and mirrored. -/
theorem Mirrors.bind (h : r.Mirrors d) (conn i : Bytes) :
    (r.call (.bind conn i)).1 = (d.call (.bind conn i)).1 ∧
      (r.call (.bind conn i)).2.Mirrors (d.call (.bind conn i)).2 := by
  simp only [Registry.call, Directory.call, Registry.bind, List.isEmpty_iff, h.entries]
  split
  · exact ⟨rfl, h⟩
  · cases hp : d.pasts.get? conn with
    | none => exact ⟨rfl, h⟩
    | some p =>
        cases hb : p.bound with
        | none =>
            simp only [Option.map_some, Past.entry, hb]
            exact ⟨rfl, h.insert conn { p with bound := some i }⟩
        | some bound =>
            simp only [Option.map_some, Past.entry, hb, beq_iff_eq]
            split
            · exact ⟨rfl, h⟩
            · exact ⟨rfl, h⟩

/-- A touch is mirrored. -/
theorem Mirrors.touch (h : r.Mirrors d) (conn : Bytes) (now : Instant) :
    (r.call (.touch conn now)).2.Mirrors (d.call (.touch conn now)).2 := by
  refine ⟨h.cursor, h.livenessMs, fun other => ?_⟩
  simp only [Registry.call, Directory.call, Registry.touch, Sharded.get?_modify, Table.modify,
    Table.get?_alter, h.entries]
  split
  · cases d.pasts.get? other with
    | none => rfl
    | some p => exact congrArg (fun t => some (Entry.mk p.bound t)) (p.lastHeard_append now).symm
  · rfl

/-- A removal is mirrored. -/
theorem Mirrors.unregister (h : r.Mirrors d) (conn : Bytes) :
    (r.call (.unregister conn)).2.Mirrors (d.call (.unregister conn)).2 := by
  refine ⟨h.cursor, h.livenessMs, fun other => ?_⟩
  simp only [Registry.call, Directory.call, Registry.unregister, Sharded.get?_erase,
    Table.get?_erase, h.entries]
  split <;> rfl

/-- A call is answered alike, and what it does is the same. -/
theorem Mirrors.call (h : r.Mirrors d) (c : Call) :
    (r.call c).1 = (d.call c).1 ∧ (r.call c).2.Mirrors (d.call c).2 := by
  cases c with
  | register conn now => exact h.register conn now
  | bind conn i => exact h.bind conn i
  | touch conn now => exact ⟨rfl, h.touch conn now⟩
  | unregister conn => exact ⟨rfl, h.unregister conn⟩

/-- Calls keep a registry mirrored. -/
theorem Mirrors.after (h : r.Mirrors d) (calls : List Call) :
    (r.after calls).Mirrors (d.after calls) := by
  induction calls generalizing r d with
  | nil => exact h
  | cons c calls ih => exact ih (h.call c).2

/-! ### What is shown -/

/-- A registry answers and shows what a directory does.  Which connection of an instance it shows is
left open. -/
structure Agrees (r : Registry) (d : Directory) : Prop where
  call : ∀ c, (r.call c).1 = (d.call c).1
  find : ∀ conn now, r.find conn now = d.find conn now
  isAlive : ∀ conn now, r.isAlive conn now = (d.find conn now).map Connection.isAlive
  list : ∀ request now, r.list request now =
    paginate Connection.id (d.connections now) d.cursor request
  size : r.size = d.pasts.size
  carrying : ∀ i now c, r.carrying i now = .ok c →
    d.find c.id now = .ok c ∧ c.instanceId = some i
  noneCarries : ∀ i now cause, r.carrying i now = .error cause ↔
    cause = .noneCarries i ∧ ∀ conn c, d.find conn now = .ok c → c.instanceId ≠ some i

/-- A mirrored entry is shown the same. -/
theorem Mirrors.view_eq (h : r.Mirrors d) (conn : Bytes) (p : Past) (now : Instant) :
    r.view conn p.entry now = d.view conn p now := by
  rw [view, Registry.threshold, h.livenessMs]
  rfl

/-- A mirrored registry shows the same of every connection. -/
theorem Mirrors.find_eq (h : r.Mirrors d) (conn : Bytes) (now : Instant) :
    r.find conn now = d.find conn now := by
  rw [Registry.find, Directory.find, h.entries]
  cases d.pasts.get? conn with
  | none => rfl
  | some p => exact congrArg Except.ok (h.view_eq conn p now)

/-- All shards together hold what the directory holds. -/
theorem Mirrors.toTable_eq (h : r.Mirrors d) : r.entries.toTable = d.pasts.map Past.entry :=
  Table.ext_get? fun conn => by rw [Sharded.get?_toTable, Table.get?_map, h.entries]

/-- A mirrored registry lists the same. -/
theorem Mirrors.list_eq (h : r.Mirrors d) (request : PageRequest) (now : Instant) :
    r.list request now = paginate Connection.id (d.connections now) d.cursor request := by
  have hitems : (r.entries.toTable.toList.map fun e => r.view e.1 e.2 now) =
      d.connections now := by
    have hmap : (d.pasts.map Past.entry).toList = d.pasts.toList.map fun e => (e.1, e.2.entry) :=
      rfl
    rw [h.toTable_eq, hmap, List.map_map]
    exact List.map_congr_left fun e _ => h.view_eq e.1 e.2 now
  rw [← hitems, ← h.cursor]
  rfl

/-- What is shown of a connection is the view of its entry. -/
theorem find_eq_ok_iff {c : Connection} : r.find conn now = .ok c ↔
    ∃ e, r.entries.get? conn = some e ∧ c = r.view conn e now := by
  rw [find]
  cases r.entries.get? conn with
  | none => simp
  | some e => simp [eq_comm]

/-- The connection that is shown for an instance is open and carries it. -/
theorem find_of_carrying {c : Connection} (h : r.carrying i now = .ok c) :
    r.find c.id now = .ok c ∧ c.instanceId = some i := by
  rw [carrying] at h
  split at h
  · rename_i conn e hfound
    cases h
    have hi : e.instanceId = some i := by simpa using List.find?_some hfound
    exact ⟨find_eq_ok_iff.mpr
      ⟨e, r.entries.mem_entries_iff.mp (List.mem_of_find?_eq_some hfound), rfl⟩, hi⟩
  · cases h

/-- There is no connection for an instance only if none carries it. -/
theorem carrying_eq_error_iff {cause : Refusal} : r.carrying i now = .error cause ↔
    cause = .noneCarries i ∧ ∀ conn c, r.find conn now = .ok c → c.instanceId ≠ some i := by
  cases hc : r.carrying i now with
  | ok c =>
      obtain ⟨hfind, hi⟩ := find_of_carrying hc
      exact iff_of_false nofun fun hnone => hnone.2 c.id c hfind hi
  | error cause' =>
      rw [carrying] at hc
      split at hc
      · cases hc
      rename_i hnone
      cases hc
      refine ⟨?_, fun h => by rw [h.1]⟩
      rintro ⟨⟩
      refine ⟨rfl, fun conn c hfind hi => ?_⟩
      obtain ⟨e, he, rfl⟩ := find_eq_ok_iff.mp hfind
      exact List.find?_eq_none.mp hnone (conn, e) (r.entries.mem_entries_iff.mpr he)
        (beq_iff_eq.mpr hi)

/-- A mirrored registry agrees with the directory in every question. -/
theorem Mirrors.agrees (h : r.Mirrors d) : r.Agrees d where
  call c := (h.call c).1
  find := h.find_eq
  isAlive conn now := congrArg (Except.map Connection.isAlive) (h.find_eq conn now)
  list := h.list_eq
  size := by rw [Registry.size, ← Sharded.size_toTable, h.toTable_eq, Table.size_map]
  carrying i now c hc := by
    rw [← h.find_eq]
    exact find_of_carrying hc
  noneCarries i now cause := by
    simp only [← h.find_eq]
    exact carrying_eq_error_iff

/-! ### Calls that are refused, and bindings -/

/-- A call that is refused changes nothing. -/
theorem call_of_error {c : Call} {cause : Refusal} (h : (r.call c).1 = .error cause) :
    (r.call c).2 = r := by
  have hkeep {result : Except Refusal Registry} (hk : (r.keep result).1 = .error cause) :
      (r.keep result).2 = r := by
    cases result with
    | ok => cases hk
    | error => rfl
  cases c with
  | register conn now => exact hkeep h
  | bind conn i => exact hkeep h
  | touch conn now => cases h
  | unregister conn => cases h

end Registry

namespace Directory

variable {d : Directory} {conn i : Bytes}

/-- There is one connection of every id that is open, in the order of ids. -/
theorem connections_ascending (d : Directory) (now : Instant) :
    Ascends Connection.id (d.connections now) := by
  rw [Ascends, connections, List.pairwise_map]
  exact d.pasts.ascending

/-- A connection that is bound stays bound to the instance as long as it is open. -/
theorem bound_call {p : Past} {c : Registry.Call} (hp : d.pasts.get? conn = some p)
    (hb : p.bound = some i) (hc : c ≠ .unregister conn) :
    ∃ p', (d.call c).2.pasts.get? conn = some p' ∧ p'.bound = some i := by
  cases c with
  | register other now =>
      simp only [call]
      split
      · exact ⟨p, hp, hb⟩
      split
      · exact ⟨p, hp, hb⟩
      · rename_i hnone
        have hne : conn ≠ other := fun e => by
          rw [← e, hp] at hnone
          cases hnone
        exact ⟨p, by rw [Table.get?_insert, if_neg hne, hp], hb⟩
  | bind other j =>
      simp only [call]
      split
      · exact ⟨p, hp, hb⟩
      split
      · exact ⟨p, hp, hb⟩
      rename_i q hq
      split
      · rename_i hnone
        -- what is bound now was not bound before
        have hne : conn ≠ other := fun e => by
          rw [← e, hp] at hq
          cases hq
          rw [hb] at hnone
          cases hnone
        exact ⟨p, by rw [Table.get?_insert, if_neg hne, hp], hb⟩
      · exact ⟨p, hp, hb⟩
  | touch other now =>
      simp only [call, Table.modify, Table.get?_alter]
      split
      · exact ⟨{ p with touches := p.touches ++ [now] }, by rw [hp]; rfl, hb⟩
      · exact ⟨p, hp, hb⟩
  | unregister other =>
      have hne : conn ≠ other := fun e => hc (congrArg _ e.symm)
      exact ⟨p, by simp only [call, Table.get?_erase, if_neg hne, hp], hb⟩

/-- A connection that is bound stays bound to its instance until it is removed. -/
theorem bound_after {p : Past} {calls : List Registry.Call} (hp : d.pasts.get? conn = some p)
    (hb : p.bound = some i) (hc : .unregister conn ∉ calls) :
    ∃ p', (d.after calls).pasts.get? conn = some p' ∧ p'.bound = some i := by
  induction calls generalizing d p with
  | nil => exact ⟨p, hp, hb⟩
  | cons c calls ih =>
      rw [List.mem_cons, not_or] at hc
      obtain ⟨p', hp', hb'⟩ := bound_call hp hb (Ne.symm hc.1)
      exact ih hp' hb' hc.2

end Directory

end FleetControl
