import FleetControl.Proofs.Command.Audit
import FleetControl.Proofs.Session.Delivery

/-!
# Identity — ids on a restored log

No two commands of a restored log have one order key, but two may have one id, since the time of
creation is a part of the key.  All of them are listed and given to their agents, and by an id the
first one in the file is found (`Identifies`).  So the answers of a restored log agree with each
other just if the ids in its journal differ (`restored_commands_identified`).

An acknowledgement counts for the command that its id finds.  A command whose id finds another one
is never acknowledged, and stays pending (`second_of_one_id_not_found`).
-/

namespace FleetControl

/-! ### Acknowledging -/

namespace Fleet

variable {f : Fleet} {log : CommandLog} {cs : List Command} {c : Command} {ids : List Bytes}

/-- A command is acknowledged by its id if that finds it. -/
theorem orderKey_mem_acknowledgedKeys (hf : f.store.log = log) (ho : f.store.outage = none)
    (h : log.Holds cs) (hn : (cs.map Command.orderKey).Nodup) (hc : c ∈ cs) :
    c.orderKey ∈ f.acknowledgedKeys c.target ids ↔ c.id ∈ ids ∧ log.find c.id = .ok c := by
  rw [mem_acknowledgedKeys_iff]
  simp only [find_eq_ok ho, hf]
  constructor
  · rintro ⟨id, hid, d, hd, -, hkey⟩
    obtain ⟨hmem, rfl⟩ := h.mem_of_find hd
    obtain rfl : d = c := List.inj_on_of_nodup_map hn hmem hc hkey
    exact ⟨hid, hd⟩
  · rintro ⟨hid, hd⟩
    exact ⟨c.id, hid, c, hd, rfl, rfl⟩

end Fleet

namespace CommandLog

open Journal (text)

variable {log : CommandLog} {cs : List Command}

/-! ### What a restored log answers -/

/-- The log lists all of these commands, finds the first one with an id, and takes an
acknowledgement of the id for one of that. -/
structure Identifies (log : CommandLog) (cs : List Command) : Prop where
  listed : ∃ items, log.list {} = .ok { items } ∧ items.Perm cs
  placed : ∀ i, (log.ofInstance i).Perm (cs.filter (·.target == i))
  found : ∀ id, log.find id = (cs.find? (·.id == id)).elim (.error (.notFound id)) .ok
  known : (cs.map (·.id)).Nodup ↔ ∀ c ∈ cs, log.find c.id = .ok c
  agrees : (cs.map (·.id)).Nodup ↔ log.Tells cs
  acknowledged : ∀ (f : Fleet) (ids : List Bytes), f.store.log = log → f.store.outage = none →
    ∀ c ∈ cs, c.orderKey ∈ f.acknowledgedKeys c.target ids ↔ c.id ∈ ids ∧ log.find c.id = .ok c

theorem Holds.identifies (h : log.Holds cs) (hn : (cs.map Command.orderKey).Nodup) :
    log.Identifies cs where
  listed := ⟨_, log.list_all, h.values_perm hn⟩
  placed := h.ofInstance_perm hn
  found id := by
    rw [find, h.byId]
    cases cs.find? (·.id == id) <;> rfl
  known := h.nodup_id_iff hn.of_map
  agrees := (h.tells_iff hn).symm
  acknowledged _ _ hf ho _ hc := Fleet.orderKey_mem_acknowledgedKeys hf ho h hn hc

/-- A journal is refused with a fault of the storage, or the log that is restored from it identifies
the commands on its complete lines. -/
theorem restored_commands_identified (cursor : Cursor) (path : Bytes) (entry : Entry) :
    (∃ cause, (restore cursor { path, entry }).result = .error cause ∧
      cause.fault.kind = .storage) ∨
    ∃ log cs, Reopens cursor path entry log cs log.file ∧ log.Identifies cs := by
  cases hresult : (restore cursor { path, entry }).result with
  | error cause => exact .inl ⟨cause, rfl, fault_of_restore hresult⟩
  | ok log =>
      obtain ⟨cs, hcs⟩ := reopens_of_restore hresult
      exact .inr ⟨log, cs, hcs, hcs.holds.identifies hcs.keeps.distinct⟩

/-- The journal holds two commands of one id, for instances i and k.  Both are listed, the id finds
the first, and instance k cannot acknowledge the second. -/
theorem second_of_one_id_not_found :
    let first := restartOf [0x61] [0x69] 5
    let second := restartOf [0x61] [0x6b] 6
    ∃ log items,
      (restore .plain { path := [0x6a], entry := .file (text [first, second]) }).result = .ok log ∧
      log.list {} = .ok { items } ∧ items.Perm [first, second] ∧
      log.find second.id = .ok first ∧ log.find second.id ≠ .ok second ∧
      ∀ (f : Fleet) (ids : List Bytes), f.store.log = log → f.store.outage = none →
        second.orderKey ∉ f.acknowledgedKeys second.target ids := by
  intro first second
  have hw : Journal.Writable [first, second] :=
    List.forall_mem_cons.mpr ⟨⟨by decide +kernel, isLegible_restartOf _ _ _⟩,
      List.forall_mem_singleton.mpr ⟨by decide +kernel, isLegible_restartOf _ _ _⟩⟩
  have hn : ([first, second].map Command.orderKey).Nodup := by decide +kernel
  have hid := (holds_openOn .plain [0x6a] (text [first, second]) [first, second]).identifies hn
  obtain ⟨items, hlist, hperm⟩ := hid.listed
  have hfound : (openOn .plain [0x6a] (text [first, second]) [first, second]).find second.id =
      .ok first := (hid.found _).trans rfl
  have hother : (openOn .plain [0x6a] (text [first, second]) [first, second]).find second.id ≠
      .ok second := by
    rw [hfound]
    intro e
    have htarget := congrArg Command.target (Except.ok.inj e)
    exact absurd htarget (by decide)
  refine ⟨_, items, restore_text hw hn [0x6a], hlist, hperm, hfound, hother, ?_⟩
  intro f ids hf ho hmem
  exact hother ((hid.acknowledged f ids hf ho second (by simp)).mp hmem).2

end CommandLog

end FleetControl
