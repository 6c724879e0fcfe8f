import FleetControl.Proofs.Command.Audit
import FleetControl.Proofs.Session.Delivery

/-!
# Succession — what is saved on a restored log

A journal may hold any times, also ones before the epoch and ones that the clock has not reached
yet.  A restored log goes on from the latest of them, so a command that is saved on it is created
later than all that are there, whatever the clock shows.  It comes last (`ComesLast`): in the
listing, among the commands of its instance, and in what an agent is given that has acknowledged
none but earlier ones.

One time has none after it.  The time of a command that is saved when the largest time is there
wraps around, and the command comes first (`saved_in_front_of_largest_time`).  So a command comes
last just if that time is not there (`saved_command_comes_last`).
-/

namespace FleetControl

namespace CommandLog

open Journal (opened text)

variable {log before after : CommandLog} {cursor : Cursor} {path content : Bytes} {entry : Entry}
  {cs items : List Command} {c : Command} {as : List Attempt} {a : Attempt}

/-! ### Times -/

/-- What `laterThan` keeps of some times is one of them, and none is later. -/
theorem latest_cases (times : List Instant) :
    times = [] ∧ times.foldl laterThan none = none ∨
      ∃ t ∈ times, times.foldl laterThan none = some t ∧ ∀ s ∈ times, s ≤ t := by
  induction times using List.reverseRecOn with
  | nil => exact .inl ⟨rfl, rfl⟩
  | append_singleton times u ih =>
      right
      rw [List.foldl_append]
      obtain ⟨rfl, hnone⟩ | ⟨t, ht, hsome, hle⟩ := ih
      · exact ⟨u, List.mem_cons_self, rfl, List.forall_mem_singleton.mpr (Int64.le_refl u)⟩
      · rw [hsome, List.foldl_cons, List.foldl_nil, laterThan]
        by_cases htu : t < u
        · rw [if_pos htu]
          exact ⟨u, List.mem_append_right _ List.mem_cons_self, rfl, List.forall_mem_append.mpr
            ⟨fun s hs => Int64.le_trans (hle s hs) (Int64.le_of_lt htu),
              List.forall_mem_singleton.mpr (Int64.le_refl u)⟩⟩
        · rw [if_neg htu]
          exact ⟨t, List.mem_append_left _ ht, rfl, List.forall_mem_append.mpr
            ⟨hle, List.forall_mem_singleton.mpr (Int64.not_lt.mp htu)⟩⟩

/-- A restored log goes on from the latest time of its commands. -/
theorem latest_openOn (cursor : Cursor) (path content : Bytes) (cs : List Command) :
    cs = [] ∧ (openOn cursor path content cs).latest = none ∨
      ∃ d ∈ cs, (openOn cursor path content cs).latest = some d.createdAt ∧
        ∀ e ∈ cs, e.createdAt ≤ d.createdAt := by
  have hlatest : (openOn cursor path content cs).latest =
      (cs.map (·.createdAt)).foldl laterThan none := latest_ofCommands cursor cs
  rw [hlatest]
  obtain ⟨hnil, hnone⟩ | ⟨t, ht, hsome, hle⟩ := latest_cases (cs.map (·.createdAt))
  · exact .inl ⟨List.map_eq_nil_iff.mp hnil, hnone⟩
  · obtain ⟨d, hd, rfl⟩ := List.mem_map.mp ht
    exact .inr ⟨d, hd, hsome, fun e he => hle _ (List.mem_map.mpr ⟨e, he, rfl⟩)⟩

/-- No command was created at the largest time, so there is one left for the next. -/
def HasTime (cs : List Command) : Prop := ∀ c ∈ cs, c.createdAt ≠ Int64.maxValue

theorem HasTime.canStamp (h : HasTime cs) (now : Instant) :
    (openOn cursor path content cs).CanStamp now := by
  intro t ht _
  obtain ⟨-, hnone⟩ | ⟨d, hd, hsome, -⟩ := latest_openOn cursor path content cs
  · cases hnone.symm.trans ht
  · cases hsome.symm.trans ht
    exact Int64.lt_of_le_of_ne (Int64.le_maxValue _) (h d hd)

/-- The next command is later than all that a journal holds. -/
theorem HasTime.lt_nextTime (h : HasTime cs) (now : Instant) :
    ∀ d ∈ cs, d.createdAt < (openOn cursor path content cs).nextTime now := by
  intro e he
  obtain ⟨rfl, -⟩ | ⟨d, -, hsome, hle⟩ := latest_openOn cursor path content cs
  · cases he
  · exact Int64.lt_of_le_of_lt (hle e he) (CommandLog.lt_nextTime (h.canStamp now) hsome)

/-- As long as the largest time is not there, there was time for every save. -/
theorem HasTime.stampable (hn : (cs.map Command.orderKey).Nodup)
    (h : HasTime (cs ++ (openOn cursor path content cs).savedBy as)) :
    (openOn cursor path content cs).Stampable as := by
  induction as using List.reverseRecOn with
  | nil => trivial
  | append_singleton as a ih =>
      rw [savedBy_append, ← List.append_assoc] at h
      have hbefore : HasTime (cs ++ (openOn cursor path content cs).savedBy as) :=
        fun c hc => h c (List.mem_append_left _ hc)
      have hstampable := ih hbefore
      refine (stampable_append _ _ _).mpr ⟨hstampable, ?_, trivial⟩
      rw [saveAll_openOn hn hstampable]
      exact hbefore.canStamp a.now

/-! ### Coming last -/

/-- A command that was saved comes after the items that the log listed before. -/
structure ComesLast (before after : CommandLog) (items : List Command) (c : Command) : Prop where
  later : ∀ d ∈ items, d.createdAt < c.createdAt
  key : ∀ d ∈ items, d.orderKey < c.orderKey
  listed : after.list {} = .ok { items := items ++ [c] }
  placed : after.ofInstance c.target = before.ofInstance c.target ++ [c]
  /-- A bounded read past nothing or past an earlier command ends with it, if there is room. -/
  read : ∀ key limit, (key = [] ∨ ∃ d ∈ items, d.orderKey = key) →
    after.ofInstanceAfter c.target key limit =
      (((before.ofInstance c.target).filter fun d => Bytes.before key d.orderKey) ++ [c]).take limit
  /-- So does a reply to its agent, whose ledger stands somewhere in the earlier commands. -/
  delivered : ∀ (f : Fleet) (past coming : List Command) (acked : Command → Bool) (reply : Reply),
    f.store.log = after → f.store.outage = none → before.ofInstance c.target = past ++ coming →
    (f.ledger c.target).Stands past coming acked → acked c = false →
    f.perReply.toNat + (f.ledger c.target).ahead.size < 2 ^ 64 →
    (f.deliver c.target reply).1.commands =
      (((coming.filter fun d => !acked d) ++ [c]).take f.perReply.toNat).map Command.delivery

/-- A command with a later time comes last, if it is from the epoch on. -/
theorem Holds.comesLast (h : before.Holds cs) (h' : after.Holds (cs ++ [c]))
    (hn : (cs.map Command.orderKey).Nodup) (h₀ : 0 ≤ c.createdAt)
    (hlater : ∀ d ∈ cs, d.createdAt < c.createdAt) :
    ComesLast before after before.ordered.values c := by
  have hperm := h.values_perm hn
  have hkey : ∀ d ∈ cs, d.orderKey < c.orderKey := fun d hd =>
    Command.orderKey_lt_of_createdAt_lt h₀ (hlater d hd)
  have hplaced := h.ofInstance_append_last h' hn hkey
  refine ⟨fun d hd => hlater d (hperm.subset hd), fun d hd => hkey d (hperm.subset hd), ?_,
    hplaced, fun key limit hk => ?_, fun f past coming acked reply hf ho hcs hl hc hw => ?_⟩
  · rw [list_all, h.values_append_last h' hn hkey]
  · have hpast : Bytes.before key c.orderKey = true := by
      rw [Bytes.before_iff]
      rcases hk with rfl | ⟨d, hd, rfl⟩
      · exact c.nil_lt_orderKey
      · exact hkey d (hperm.subset hd)
    rw [ofInstanceAfter_eq_filter h', hplaced, List.filter_append, List.filter_singleton, hpast,
      cond_true]
  · -- the ledger stands in front of the new command as well
    have hstands : (f.ledger c.target).Stands past (coming ++ [c]) acked := by
      refine ⟨hl.watermark, ?_⟩
      rw [hl.ahead, List.filter_append, List.filter_cons_of_neg (by simp [hc]), List.filter_nil,
        List.append_nil]
    have hnew : f.store.log.ofInstance c.target = past ++ (coming ++ [c]) := by
      rw [hf, hplaced, hcs, List.append_assoc]
    rw [f.deliver_of_stands ho (hf ▸ h') hnew hstands hw reply, List.filter_append,
      List.filter_cons_of_pos (by simp [hc]), List.filter_nil]

/-- A command that is saved on a restored log comes after everything there, unless one there was
created at the largest time. -/
theorem saved_command_comes_last (h : (restore cursor { path, entry }).result = .ok log)
    (h₀ : 0 ≤ a.now) (hc : ((log.saveAll as).attempt a).result = .ok c) :
    ∃ items, (log.saveAll as).list {} = .ok { items } ∧
      (ComesLast (log.saveAll as) (log.saveAll (as ++ [a])) items c ↔ HasTime items) := by
  obtain ⟨cs, hcs⟩ := reopens_of_restore h
  obtain ⟨-, -, -, -, hn, hlog⟩ := hcs.base
  have hkeeps := hcs.keeps.saves as
  have hkeeps' := hcs.keeps.saves (as ++ [a])
  have hperm := hkeeps.holds.values_perm hkeeps.distinct
  refine ⟨_, list_all _, fun hlast d hd hd' => ?_, fun htime => ?_⟩
  · have hlt := hlast.later d hd
    rw [hd'] at hlt
    exact Int64.not_lt.mpr (Int64.le_maxValue _) hlt
  · have htime' : HasTime (cs ++ log.savedBy as) := fun d hd => htime d (hperm.symm.subset hd)
    have hopen : log.saveAll as = openOn cursor path (log.file ++ text (log.savedBy as))
        (cs ++ log.savedBy as) := by
      rw [hlog] at htime' ⊢
      exact saveAll_openOn hn (HasTime.stampable hn htime')
    have hsaved : log.savedBy (as ++ [a]) = log.savedBy as ++ [c] := by
      rw [savedBy_append, savedBy_of_ok hc]
      rfl
    rw [hsaved, ← List.append_assoc] at hkeeps'
    have hnew := isNew_of_attempt hc
    rw [hopen] at hnew
    refine hkeeps.holds.comesLast hkeeps'.holds hkeeps.distinct ?_ ?_
    · rw [hnew.createdAt]
      exact Int64.le_trans h₀ (le_nextTime (htime'.canStamp a.now))
    · rw [hnew.createdAt]
      exact htime'.lt_nextTime a.now

theorem exists_ok_of_map {α β ε : Type} {result : Except ε α} {f : α → β} {v : β}
    (h : result.toOption.map f = some v) : ∃ x, result = .ok x ∧ f x = v := by
  cases result with
  | error cause => cases h
  | ok x => exact ⟨x, rfl, Option.some.inj h⟩

/-- The journal holds a command from the future.  The next one is created right behind it. -/
theorem command_behind_future_one :
    let log := oneCommand 5
    let next := restartAt 3 fun _ => [0x62]
    ∃ c items, (log.attempt next).result = .ok c ∧ c.createdAt = 6 ∧
      log.list {} = .ok { items } ∧ items.map (·.id) = [[0x61]] ∧
      ComesLast log (log.saveAll [next]) items c := by
  intro log next
  have htime : (log.attempt next).result.toOption.map (·.createdAt) = some 6 := by decide +kernel
  obtain ⟨c, hc, hcreated⟩ := exists_ok_of_map htime
  have hnext : ((log.saveAll []).attempt next).result = .ok c := hc
  obtain ⟨items, hlist, hlast⟩ :=
    saved_command_comes_last (restore_oneCommand (by decide +kernel)) (by decide) hnext
  obtain rfl : items = [restartOf [0x61] [0x69] 5] := by
    cases hlist
    rfl
  refine ⟨c, _, hc, hcreated, hlist, rfl, hlast.mpr fun d hd => ?_⟩
  rw [List.mem_singleton.mp hd]
  decide

/-- The journal holds a command of the largest time.  The next one is created before it, is listed
in front of it, and is not given to an agent that has acknowledged it. -/
theorem saved_in_front_of_largest_time :
    let last := restartOf [0x61] [0x69] Int64.maxValue
    let log := oneCommand Int64.maxValue
    let next := restartAt 3 fun _ => [0x62]
    (restore .plain { path := [0x6a], entry := .file (text [last]) }).result = .ok log ∧
      ∃ c items, (log.attempt next).result = .ok c ∧ c.createdAt < last.createdAt ∧
        (log.saveAll [next]).list {} = .ok { items } ∧ items.map (·.id) = [[0x62], [0x61]] ∧
        (log.saveAll [next]).ofInstanceAfter c.target last.orderKey 5 = [] := by
  intro last log next
  have hnext : (log.attempt next).result.toOption.map (fun c => (c.createdAt, c.target)) =
      some (Int64.minValue, [0x69]) := by decide +kernel
  obtain ⟨c, hc, hparts⟩ := exists_ok_of_map hnext
  obtain ⟨hcreated, htarget⟩ := Prod.mk.inj hparts
  refine ⟨restore_oneCommand (by decide +kernel), c, _, hc, ?_, list_all _, by decide +kernel, ?_⟩
  · rw [hcreated]
    decide
  · rw [htarget]
    have hnone : ((log.saveAll [next]).ofInstanceAfter [0x69] last.orderKey 5).length = 0 := by
      decide +kernel
    exact List.length_eq_zero_iff.mp hnone

end CommandLog

end FleetControl
