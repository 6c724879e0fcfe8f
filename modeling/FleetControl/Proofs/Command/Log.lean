import FleetControl.Command.Log
import FleetControl.Proofs.Command.OrderKey
import FleetControl.Proofs.Page.Listing
import FleetControl.Proofs.Table

/-!
# The command log — three indexes of one list

A log *holds* a list of commands when each of its indexes finds the first command of the list with
the key asked for (`Holds`), and putting a command into the indexes appends it (`Holds.index`).  A
log *records* a list when it holds it, creation times strictly rise along it, ids differ, and the
latest time is the last one's (`Records`); `Records.save` says that a save either leaves the log's
commands as they are or appends one that is new.

The listing is the list in the order of keys (`Holds.values_perm`), and so are the commands of an
instance; what comes with a later key than all others comes last in both
(`Holds.values_append_last`).  The bounded read of an instance's commands is a part of the plain one
(`ofInstanceAfter_eq_filter`).  While no creation time is before the epoch, the order of keys is the
order of saving, so the plain one is a part of the list (`ofInstance_eq_filter`).

By an id the first command with it is found.  If ids differ, that is the command itself
(`Holds.find_eq_ok_iff`).
-/

namespace FleetControl

/-! ### Times -/

namespace Instant

/-- Before the largest time there is a next one. -/
theorem lt_add_one {t : Instant} (h : t < Int64.maxValue) : t < t + 1 := by
  rw [Int64.lt_iff_toInt_lt] at h ⊢
  have h₀ := t.le_toInt
  rw [Int64.toInt_maxValue] at h
  rw [Int64.toInt_add, Int64.toInt_one, Int.bmod_eq_of_le (by omega) (by omega)]
  omega

end Instant

namespace CommandLog

variable {log : CommandLog} {cs saved : List Command} {c : Command}

/-- Whether there is a time left for the next command.  Times are words, and the one past the
largest would be before every other. -/
def CanStamp (log : CommandLog) (now : Instant) : Prop :=
  ∀ t, log.latest = some t → now ≤ t → t < Int64.maxValue

/-- The next time is now, or just after the latest if now is not past that. -/
theorem nextTime_of_latest {t : Instant} (ht : log.latest = some t) (now : Instant) :
    log.nextTime now = if now ≤ t then t + 1 else now := by rw [nextTime, ht]

/-- A stamp is past all earlier ones as long as there is a time past them. -/
theorem lt_nextTime {now t : Instant} (h : log.CanStamp now) (ht : log.latest = some t) :
    t < log.nextTime now := by
  rw [nextTime_of_latest ht]
  split
  · rename_i hn; exact Instant.lt_add_one (h t ht hn)
  · rename_i hn; exact Int64.not_le.mp hn

/-- A stamp is never behind the clock as long as there is a time past the earlier ones. -/
theorem le_nextTime {now : Instant} (h : log.CanStamp now) : now ≤ log.nextTime now := by
  cases ht : log.latest with
  | none => rw [nextTime, ht]; exact Int64.le_refl _
  | some t =>
      rw [nextTime_of_latest ht]
      split
      · rename_i hn; exact Int64.le_trans hn (Int64.le_of_lt (Instant.lt_add_one (h t ht hn)))
      · exact Int64.le_refl _

/-! ### What the indexes hold -/

/-- Every index finds the first command of the list with the key asked for. -/
structure Holds (log : CommandLog) (cs : List Command) : Prop where
  ordered : ∀ key, log.ordered.get? key = cs.find? (·.orderKey == key)
  byId : ∀ id, log.byId.get? id = cs.find? (·.id == id)
  byInstance : ∀ i key, ((log.byInstance.get? i).getD ∅).get? key =
    (cs.filter (·.target == i)).find? (·.orderKey == key)

/-- An empty log holds no commands. -/
theorem holds_nil (cursor : Cursor) : ({ cursor } : CommandLog).Holds [] :=
  ⟨fun _ => rfl, fun _ => rfl, fun _ _ => rfl⟩

/-- What an index that keeps its first command finds after one more. -/
theorem getD_find?_append (name : Command → Bytes) (key : Bytes) :
    (if key = name c then some ((cs.find? (name · == key)).getD c)
      else cs.find? (name · == key)) = (cs ++ [c]).find? (name · == key) := by
  rw [List.find?_append, List.find?_singleton]
  by_cases h : key = name c
  · rw [if_pos h, if_pos (beq_iff_eq.mpr h.symm)]
    cases cs.find? (name · == key) <;> rfl
  · rw [if_neg h, if_neg fun e => h (beq_iff_eq.mp e).symm, Option.or_none]

/-- Indexing a command appends it to what the log holds. -/
theorem Holds.index (h : log.Holds cs) (c : Command) : (log.index c).Holds (cs ++ [c]) where
  ordered key := by
    rw [← getD_find?_append, ← h.ordered]
    exact Table.get?_insertNew _ _ _ _
  byId id := by
    rw [← getD_find?_append, ← h.byId]
    exact Table.get?_insertNew _ _ _ _
  byInstance i key := by
    rw [List.filter_append, List.filter_cons, List.filter_nil]
    by_cases hi : i = c.target
    · subst hi
      rw [beq_self_eq_true, if_pos rfl, ← getD_find?_append, ← h.byInstance]
      simp only [CommandLog.index, Table.get?_alter_self, Option.getD_some]
      exact Table.get?_insertNew _ _ _ _
    · rw [if_neg fun e => hi (beq_iff_eq.mp e).symm, List.append_nil,
        ← h.byInstance]
      simp only [CommandLog.index, Table.get?_alter_of_ne hi]

/-- Only the indexes count for what a log holds. -/
theorem Holds.congr (h : log.Holds cs) {log' : CommandLog} (ho : log'.ordered = log.ordered)
    (hi : log'.byId = log.byId) (hn : log'.byInstance = log.byInstance) : log'.Holds cs :=
  ⟨ho ▸ h.ordered, hi ▸ h.byId, hn ▸ h.byInstance⟩

/-- No command that is held has an id that the log does not know. -/
theorem Holds.id_ne (h : log.Holds cs) {id : Bytes} (hid : log.byId.get? id = none)
    (hc : c ∈ cs) : c.id ≠ id := by
  intro e
  rw [h.byId] at hid
  exact List.find?_eq_none.mp hid c hc (beq_iff_eq.mpr e)

/-- Names stay distinct if the next command has a name of its own. -/
theorem nodup_map_append_singleton (name : Command → Bytes) :
    ((cs ++ [c]).map name).Nodup ↔ name c ∉ cs.map name ∧ (cs.map name).Nodup := by
  rw [List.map_append, List.map_singleton, ← List.concat_eq_append, List.nodup_concat]

/-! ### Reading a log in order -/

/-- The order of a list is the order of its keys. -/
def Sorted (cs : List Command) : Prop := cs.Pairwise fun a b => a.orderKey < b.orderKey

/-- What is left of sorted commands is sorted. -/
theorem Sorted.filter (h : Sorted cs) (p : Command → Bool) : Sorted (cs.filter p) :=
  List.Pairwise.filter p h

/-- Among sorted commands an order key belongs to one. -/
theorem Sorted.eq_of_orderKey_eq (h : Sorted cs) {a b : Command} (ha : a ∈ cs) (hb : b ∈ cs)
    (e : a.orderKey = b.orderKey) : a = b :=
  List.inj_on_of_nodup_map (List.pairwise_map.mpr (h.imp Bytes.ne_of_lt)) ha hb e

/-- The entries that are kept for an instance are its commands under their order keys, in the order
of the log. -/
theorem instanceEntries (h : log.Holds cs) (hs : Sorted cs) (i : Bytes) :
    ((log.byInstance.get? i).getD ∅).toList =
      (cs.filter (·.target == i)).map fun c => (c.orderKey, c) :=
  Table.toList_eq_of_get? (Entries.ascending_map (hs.filter _)) fun key => by
    rw [Entries.lookup_map, h.byInstance]

/-- An instance is shown its commands in the order of the log. -/
theorem ofInstance_eq_filter (h : log.Holds cs) (hs : Sorted cs) (i : Bytes) :
    log.ofInstance i = cs.filter (·.target == i) := by
  have e : log.ofInstance i = ((log.byInstance.get? i).getD ∅).toList.map (·.2) := rfl
  rw [e, instanceEntries h hs, List.map_map]
  exact List.map_id _

/-- The bounded read of an instance's commands is a part of the plain one. -/
theorem ofInstanceAfter_eq_filter (h : log.Holds cs) (i after : Bytes) (limit : ℕ) :
    log.ofInstanceAfter i after limit =
      ((log.ofInstance i).filter fun c => Bytes.before after c.orderKey).take limit :=
  congrArg (List.take limit)
    (Table.values_filter (Table.name_of_find? (h.byInstance i)) (Bytes.before after))

/-- The entries of the whole log are its commands under their order keys, in order. -/
theorem orderedEntries (h : log.Holds cs) (hs : Sorted cs) :
    log.ordered.toList = cs.map fun c => (c.orderKey, c) :=
  Table.toList_eq_of_get? (Entries.ascending_map hs) fun key => by
    rw [Entries.lookup_map, h.ordered]

/-- Commands that differ in their keys are listed, in the order of these. -/
theorem Holds.values_perm (h : log.Holds cs) (hn : (cs.map Command.orderKey).Nodup) :
    log.ordered.values.Perm cs := Table.values_perm hn h.ordered

/-- The values of the log stand in the order of their keys, whatever order they came in. -/
theorem Holds.values_sorted (h : log.Holds cs) : Sorted log.ordered.values :=
  Table.values_pairwise (Table.name_of_find? h.ordered)

/-- An instance is shown its commands and no others, each once. -/
theorem Holds.ofInstance_perm (h : log.Holds cs) (hn : (cs.map Command.orderKey).Nodup)
    (i : Bytes) : (log.ofInstance i).Perm (cs.filter (·.target == i)) :=
  Table.values_perm (hn.sublist (List.filter_sublist.map _)) (h.byInstance i)

/-- The commands of an instance stand in the order of their keys. -/
theorem Holds.ofInstance_sorted (h : log.Holds cs) (i : Bytes) : Sorted (log.ofInstance i) :=
  Table.values_pairwise (Table.name_of_find? (h.byInstance i))

/-- With distinct order keys the log is as large as there are commands. -/
theorem Holds.size_eq (h : log.Holds cs) (hn : (cs.map Command.orderKey).Nodup) :
    log.size = cs.length := by
  rw [← (h.values_perm hn).length_eq]
  exact (List.length_map _).symm

/-- A list in order is known from what is in it. -/
theorem Sorted.eq_of_perm {cs ds : List Command} (h : Sorted cs) (h' : Sorted ds)
    (hp : cs.Perm ds) : cs = ds :=
  hp.eq_of_pairwise (fun _ _ _ _ hab hba => absurd hba (Bytes.lt_asymm hab)) h h'

/-- A command whose key is past all others may come last. -/
theorem Sorted.append_singleton (h : Sorted cs) (hlast : ∀ d ∈ cs, d.orderKey < c.orderKey) :
    Sorted (cs ++ [c]) :=
  List.pairwise_append.mpr ⟨h, List.pairwise_singleton _ _, fun d hd b hb => by
    rw [List.mem_singleton.mp hb]
    exact hlast d hd⟩

section Last

variable {log' : CommandLog} (h : log.Holds cs) (h' : log'.Holds (cs ++ [c]))
  (hn : (cs.map Command.orderKey).Nodup) (hlast : ∀ d ∈ cs, d.orderKey < c.orderKey)

include hn hlast in
/-- A command whose key is past all others has a key of its own. -/
theorem nodup_append_last : ((cs ++ [c]).map Command.orderKey).Nodup := by
  refine (nodup_map_append_singleton _).mpr ⟨fun hm => ?_, hn⟩
  obtain ⟨d, hd, e⟩ := List.mem_map.mp hm
  exact Bytes.ne_of_lt (hlast d hd) e

include h h' hn hlast

/-- A command with a later key than all others is listed last. -/
theorem Holds.values_append_last : log'.ordered.values = log.ordered.values ++ [c] := by
  have hperm := h.values_perm hn
  refine h'.values_sorted.eq_of_perm
    (h.values_sorted.append_singleton fun d hd => hlast d (hperm.subset hd)) ?_
  exact (h'.values_perm (nodup_append_last hn hlast)).trans (hperm.symm.append_right [c])

/-- It is the last one of its instance too. -/
theorem Holds.ofInstance_append_last :
    log'.ofInstance c.target = log.ofInstance c.target ++ [c] := by
  have hperm := h.ofInstance_perm hn c.target
  have hlater : ∀ d ∈ log.ofInstance c.target, d.orderKey < c.orderKey := fun d hd =>
    hlast d (List.mem_of_mem_filter (hperm.subset hd))
  refine (h'.ofInstance_sorted _).eq_of_perm
    ((h.ofInstance_sorted _).append_singleton hlater) ?_
  have hperm' := h'.ofInstance_perm (nodup_append_last hn hlast) c.target
  rw [List.filter_append, List.filter_singleton, beq_self_eq_true, cond_true] at hperm'
  exact hperm'.trans (hperm.symm.append_right [c])

end Last

/-! ### Finding commands by their ids -/

/-- A command is found by what is kept under its id. -/
theorem find_eq_ok_iff {id : Bytes} : log.find id = .ok c ↔ log.byId.get? id = some c := by
  rw [find]
  cases log.byId.get? id <;> simp

/-- What is found under an id is a command of the log that has it. -/
theorem Holds.mem_of_find (h : log.Holds cs) {id : Bytes} (hf : log.find id = .ok c) :
    c ∈ cs ∧ c.id = id := by
  rw [CommandLog.find_eq_ok_iff, h.byId] at hf
  exact ⟨List.mem_of_find?_eq_some hf, by simpa using List.find?_some hf⟩

/-- The id of a command that is held finds a command with it, if not that one. -/
theorem Holds.exists_find (h : log.Holds cs) (hc : c ∈ cs) :
    ∃ d, log.find c.id = .ok d ∧ d ∈ cs ∧ d.id = c.id := by
  cases hf : log.byId.get? c.id with
  | none => exact absurd rfl (h.id_ne hf hc)
  | some d =>
      have hd := find_eq_ok_iff.mpr hf
      exact ⟨d, hd, h.mem_of_find hd⟩

/-- With distinct ids a command is found under its id. -/
theorem Holds.find_eq_ok_iff (h : log.Holds cs) (hd : (cs.map (·.id)).Nodup) {id : Bytes} :
    log.find id = .ok c ↔ c ∈ cs ∧ c.id = id := by
  refine ⟨h.mem_of_find, ?_⟩
  rintro ⟨hc, rfl⟩
  obtain ⟨d, hf, hmem, hid⟩ := h.exists_find hc
  rwa [List.inj_on_of_nodup_map hd hmem hc hid] at hf

/-- Ids differ just if each finds its own command. -/
theorem Holds.nodup_id_iff (h : log.Holds cs) (hn : cs.Nodup) :
    (cs.map (·.id)).Nodup ↔ ∀ c ∈ cs, log.find c.id = .ok c := by
  constructor
  · intro hd c hc
    exact (h.find_eq_ok_iff hd).mpr ⟨hc, rfl⟩
  · intro hf
    refine hn.map_on fun a ha b hb e => ?_
    have hab := (hf a ha).symm.trans (congrArg log.find e |>.trans (hf b hb))
    exact Except.ok.inj hab

/-! ### Logs that were started empty -/

/-- The log was started empty and has saved these commands, in this order. -/
structure Records (log : CommandLog) (saved : List Command) : Prop where
  holds : log.Holds saved
  rising : saved.Pairwise fun a b => a.createdAt < b.createdAt
  distinct : (saved.map (·.id)).Nodup
  latest : log.latest = saved.getLast?.map (·.createdAt)

/-- An empty log records nothing. -/
theorem records_nil (cursor : Cursor) : ({ cursor } : CommandLog).Records [] :=
  ⟨holds_nil cursor, .nil, .nil, rfl⟩

/-- Later commands have later keys if all of them are created from the epoch on. -/
theorem Records.sorted (h : log.Records saved) (h₀ : ∀ c ∈ saved, 0 ≤ c.createdAt) :
    Sorted saved :=
  List.Pairwise.imp_of_mem (fun {a b} ha hb hab =>
    (Command.orderKey_lt_iff (h₀ a ha) (h₀ b hb)).mpr (.inl hab)) h.rising

/-- There are only so many times to stamp commands with. -/
theorem Records.length_le (h : log.Records saved) (h₀ : ∀ c ∈ saved, 0 ≤ c.createdAt) :
    saved.length ≤ 2 ^ 63 := by
  -- the times are distinct numbers below the bound
  have hinj : ∀ a ∈ saved, ∀ b ∈ saved,
      a.createdAt.toInt.toNat = b.createdAt.toInt.toNat → a.createdAt = b.createdAt := by
    intro a ha b hb e
    have ha₀ := Int64.le_iff_toInt_le.mp (h₀ a ha)
    have hb₀ := Int64.le_iff_toInt_le.mp (h₀ b hb)
    rw [Int64.toInt_zero] at ha₀ hb₀
    exact Int64.toInt_inj.mp (by omega)
  have hnodup : (saved.map fun c => c.createdAt.toInt.toNat).Nodup :=
    List.pairwise_map.mpr (List.Pairwise.imp_of_mem (fun {a b} ha hb hab e =>
      absurd (hinj a ha b hb e) (Int64.ne_of_lt hab)) h.rising)
  have hrange : (saved.map fun c => c.createdAt.toInt.toNat) ⊆ List.range (2 ^ 63) := by
    intro n hn
    obtain ⟨c, -, rfl⟩ := List.mem_map.mp hn
    have hlt := c.createdAt.toInt_lt
    exact List.mem_range.mpr (by omega)
  simpa using (List.subperm_of_subset hnodup hrange).length_le

/-- Among the commands that were recorded an id belongs to one. -/
theorem Records.eq_of_id_eq (h : log.Records saved) {a b : Command} (ha : a ∈ saved)
    (hb : b ∈ saved) (e : a.id = b.id) : a = b :=
  List.inj_on_of_nodup_map h.distinct ha hb e

/-- Just the commands that were recorded are found under their ids. -/
theorem Records.find_eq_ok_iff (h : log.Records saved) {id : Bytes} :
    log.find id = .ok c ↔ c ∈ saved ∧ c.id = id :=
  h.holds.find_eq_ok_iff h.distinct

/-! ### Saving -/

/-- An id that is drawn is not empty and not taken. -/
theorem allocate_eq_some {isTaken : Bytes → Bool} {tries : ℕ} {ids : IdSource} {id : Bytes}
    (h : (ids.allocate isTaken tries).1 = some id) : id ≠ [] ∧ isTaken id = false := by
  induction tries generalizing ids with
  | zero => cases h
  | succ tries ih =>
      simp only [IdSource.allocate] at h
      split at h
      · exact ih h
      · rename_i hn
        simp only [Option.some.injEq] at h
        simpa [h] using hn

/-- The command that a save of `r` at `now` makes, under an id that the log does not know. -/
structure IsNew (log : CommandLog) (now : Instant) (r : Request) (c : Command) : Prop where
  checked : r.check = .ok ()
  made : c = r.command c.id (log.nextTime now)
  named : c.id ≠ []
  unused : log.byId.get? c.id = none

/-- A new command is stamped with the next time of the log. -/
theorem IsNew.createdAt {now : Instant} {r : Request} (h : log.IsNew now r c) :
    c.createdAt = log.nextTime now := by
  rw [h.made]; rfl

/-- What a save can do: refuse at once, fail to write the journal, or put a new command into the
journal and the indexes. -/
theorem save_cases (log : CommandLog) (ids : IdSource) (now : Instant) (room : Option ℕ)
    (r : Request) :
    (∃ cause, (log.save ids now room r).result = .error cause ∧
      (log.save ids now room r).log = log) ∨
    ∃ c, log.IsNew now r c ∧
      ((∃ cause log', log.record room c = (.error cause, log') ∧
          (log.save ids now room r).result = .error cause ∧
          (log.save ids now room r).log = log') ∨
        ∃ log', log.record room c = (.ok (), log') ∧
          (log.save ids now room r).result = .ok c ∧
          (log.save ids now room r).log = { log'.index c with latest := some c.createdAt }) := by
  cases hc : r.check with
  | error cause =>
      exact .inl ⟨.badCommand cause, by simp only [save, hc], by simp only [save, hc]⟩
  | ok _ =>
      cases ha : ids.allocate log.byId.contains idTries with
      | mk id ids' =>
          cases id with
          | none => exact .inl ⟨.noFreeId, by simp only [save, hc, ha], by simp only [save, hc, ha]⟩
          | some id =>
              obtain ⟨hid, htaken⟩ := allocate_eq_some (congrArg Prod.fst ha)
              have hfree : log.byId.get? id = none := by simpa [Table.contains] using htaken
              refine .inr ⟨r.command id (log.nextTime now), ⟨hc, rfl, hid, hfree⟩, ?_⟩
              · cases hr : log.record room (r.command id (log.nextTime now)) with
                | mk result log' =>
                    cases result with
                    | error cause =>
                        exact .inl ⟨cause, log', rfl, by simp only [save, hc, ha, hr],
                          by simp only [save, hc, ha, hr]⟩
                    | ok _ =>
                        exact .inr ⟨log', rfl, by simp only [save, hc, ha, hr],
                          by simp only [save, hc, ha, hr]⟩

/-- Without a journal nothing is written. -/
theorem record_of_unjournaled (h : log.journal = none) (room : Option ℕ) (c : Command) :
    log.record room c = (.ok (), log) := by
  rw [record, h]

/-- With a journal a command is recorded by adding its line. -/
theorem record_of_journal {journal : Journal} (h : log.journal = some journal) (room : Option ℕ)
    (c : Command) : log.record room c =
      ((journal.append room c).1.mapError (.notJournaled journal.path),
        { log with journal := some (journal.append room c).2 }) := by
  rw [record, h]

/-- A new command comes after all that a log records. -/
theorem Records.append {now : Instant} {r : Request} (h : log.Records saved)
    (ht : log.CanStamp now) (hc : log.IsNew now r c) :
    ({ log.index c with latest := some c.createdAt } : CommandLog).Records (saved ++ [c]) where
  holds := (h.holds.index c).congr rfl rfl rfl
  rising := by
    refine List.pairwise_append.mpr ⟨h.rising, List.pairwise_singleton _ _, fun a ha b hb => ?_⟩
    obtain rfl := List.mem_singleton.mp hb
    have hl : log.latest = saved.getLast?.map (·.createdAt) := h.latest
    -- it is later than the last one, and so than every other
    cases hg : saved.getLast? with
    | none => rw [List.getLast?_eq_none_iff.mp hg] at ha; cases ha
    | some z =>
        rw [hg] at hl
        have hz : z.createdAt < b.createdAt := hc.createdAt ▸ lt_nextTime ht hl
        obtain ⟨front, rfl⟩ := List.getLast?_eq_some_iff.mp hg
        rcases List.mem_append.mp ha with ha | ha
        · exact Int64.lt_trans
            ((List.pairwise_append.mp h.rising).2.2 a ha z List.mem_cons_self) hz
        · rw [List.mem_singleton.mp ha]; exact hz
  distinct := by
    refine (nodup_map_append_singleton _).mpr ⟨fun hm => ?_, h.distinct⟩
    obtain ⟨a, ha, e⟩ := List.mem_map.mp hm
    exact h.holds.id_ne hc.unused ha e
  latest := by simp

/-- A save without a journal: nothing changes, or a new command is recorded. -/
theorem Records.save {now : Instant} (h : log.Records saved) (hj : log.journal = none)
    (ht : log.CanStamp now) (ids : IdSource) (room : Option ℕ) (r : Request) :
    (∃ cause, (log.save ids now room r).result = .error cause ∧
      (log.save ids now room r).log = log) ∨
    ∃ c, log.IsNew now r c ∧ (log.save ids now room r).result = .ok c ∧
      (log.save ids now room r).log.Records (saved ++ [c]) ∧
      (log.save ids now room r).log.journal = none := by
  obtain ⟨cause, h₁, h₂⟩ | ⟨c, hc, ⟨cause, log', hr, -, -⟩ | ⟨log', hr, h₁, h₂⟩⟩ :=
    save_cases log ids now room r
  · exact .inl ⟨cause, h₁, h₂⟩
  · rw [record_of_unjournaled hj] at hr; cases hr
  · rw [record_of_unjournaled hj] at hr
    cases hr
    exact .inr ⟨c, hc, h₁, h₂ ▸ h.append ht hc, h₂ ▸ hj⟩

/-- The journal does not count for what a log records. -/
theorem Records.withJournal (h : log.Records saved) (journal : Option Journal) :
    ({ log with journal } : CommandLog).Records saved :=
  ⟨h.holds.congr rfl rfl rfl, h.rising, h.distinct, h.latest⟩

/-- Writing a command touches nothing but the journal. -/
theorem eq_of_record {room : Option ℕ} {result : Except Refusal Unit} {log' : CommandLog}
    (h : log.record room c = (result, log')) : ∃ journal, log' = { log with journal } := by
  rw [record] at h
  split at h
  · cases h
    exact ⟨log.journal, rfl⟩
  · cases h
    exact ⟨_, rfl⟩

/-- With a journal or without, what a log records after a save is what it did, and what was
saved. -/
theorem Records.of_save {now : Instant} (h : log.Records saved) (ht : log.CanStamp now)
    (ids : IdSource) (room : Option ℕ) (r : Request) :
    (log.save ids now room r).log.Records
      (saved ++ (log.save ids now room r).result.toOption.toList) := by
  obtain ⟨cause, hres, hlog⟩ | ⟨c, hc, hcase⟩ := save_cases log ids now room r
  · rw [hres, hlog, Except.toOption, Option.toList_none, List.append_nil]
    exact h
  · obtain ⟨cause, log', hr, hres, hlog⟩ | ⟨log', hr, hres, hlog⟩ := hcase
    · obtain ⟨journal, rfl⟩ := eq_of_record hr
      rw [hres, hlog, Except.toOption, Option.toList_none, List.append_nil]
      exact h.withJournal journal
    · obtain ⟨journal, rfl⟩ := eq_of_record hr
      rw [hres, hlog, Except.toOption, Option.toList_some]
      exact (h.append ht hc).withJournal journal

/-- A log without a journal never gets one by saving. -/
theorem journal_save_of_none {now : Instant} (hj : log.journal = none) (ids : IdSource)
    (room : Option ℕ) (r : Request) : (log.save ids now room r).log.journal = none := by
  obtain ⟨cause, -, hlog⟩ | ⟨c, -, hcase⟩ := save_cases log ids now room r
  · rw [hlog, hj]
  · rw [record_of_unjournaled hj] at hcase
    obtain ⟨cause, log', hr, -, -⟩ | ⟨log', hr, -, hlog⟩ := hcase
    · cases hr
    · cases hr
      rw [hlog]
      exact hj

/-- A save leaves the commands of an instance alone that it is not for, by instance and by id. -/
theorem save_elsewhere {r : Request} {i : Bytes} (hi : r.target ≠ i) (log : CommandLog)
    (ids : IdSource) (now : Instant) (room : Option ℕ) :
    let log' := (log.save ids now room r).log
    log'.byInstance.get? i = log.byInstance.get? i ∧
      ∀ id, (log'.byId.get? id).filter (·.target == i) =
        (log.byId.get? id).filter (·.target == i) := by
  intro log'
  obtain ⟨-, -, hlog⟩ | ⟨c, hnew, ⟨cause, log'', hr, -, hlog⟩ | ⟨log'', hr, -, hlog⟩⟩ :=
    save_cases log ids now room r
  · rw [show log' = log from hlog]
    exact ⟨rfl, fun _ => rfl⟩
  · obtain ⟨journal, rfl⟩ := eq_of_record hr
    rw [show log' = { log with journal } from hlog]
    exact ⟨rfl, fun _ => rfl⟩
  · obtain ⟨journal, rfl⟩ := eq_of_record hr
    have hc : c.target ≠ i := by rwa [hnew.made]
    rw [show log' = _ from hlog]
    refine ⟨Table.get?_alter_of_ne (Ne.symm hc) _ _, fun id => ?_⟩
    have hfound : ((log.byId.insertNew c.id c).get? id).filter (·.target == i) =
        (log.byId.get? id).filter (·.target == i) := by
      rw [Table.get?_insertNew]
      split
      · rename_i hid
        rw [hid, hnew.unused, Option.getD_none, Option.filter_some, if_neg (by simpa using hc)]
        rfl
      · rfl
    exact hfound

/-! ### Listing -/

/-- Saving keeps what the continue tokens are signed with. -/
theorem cursor_save (log : CommandLog) (ids : IdSource) (now : Instant) (room : Option ℕ)
    (r : Request) : (log.save ids now room r).log.cursor = log.cursor := by
  obtain ⟨-, -, hlog⟩ | ⟨c, -, ⟨cause, log', hr, -, hlog⟩ | ⟨log', hr, -, hlog⟩⟩ :=
    save_cases log ids now room r
  · rw [hlog]
  · obtain ⟨journal, rfl⟩ := eq_of_record hr
    rw [hlog]
  · obtain ⟨journal, rfl⟩ := eq_of_record hr
    rw [hlog]
    rfl

/-- A page of the log is one of the list by order key. -/
theorem list_eq (log : CommandLog) (r : PageRequest) : log.list r =
    ((paginate (·.1) log.ordered.toList log.cursor r).map (Page.map (·.2))).mapError .badPage := by
  rw [list]
  cases paginate (·.1) log.ordered.toList log.cursor r <;> rfl

/-- The list that pages of the log are taken from ascends by order key. -/
theorem ordered_ascending (log : CommandLog) :
    PagesAscending (·.1) log.cursor (paginate (·.1) log.ordered.toList log.cursor) :=
  ⟨_, log.ordered.ascending, fun _ => rfl⟩

end CommandLog

end FleetControl
