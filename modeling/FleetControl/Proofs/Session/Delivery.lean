import FleetControl.Proofs.Page.Listing
import FleetControl.Proofs.Session.History
import FleetControl.Proofs.Session.Ledger

/-!
# Delivery — ledgers against the history of acknowledgements

Nothing in a ledger is more or less than the history (`Delivers`): along every timely run the ledger
of an instance stands behind the longest beginning of the instance's commands that is acknowledged.
`Delivers.step` says this of one event and `Delivers.run` of a run; from it come the two main
results.  A reply carries the first commands that are not acknowledged
(`reply_commands_eq_first_unacknowledged`), and the progress of an instance is a function of its
commands and of what is acknowledged (`progress_eq_of_history`).
-/

namespace FleetControl

namespace Fleet

open CommandLog (Sorted)

variable {f f₀ : Fleet} {acks : List Receipt} {saved : List Command} {c : Command}

/-! ### Ledgers of instances -/

/-- Acknowledging changes the ledger of one instance. -/
theorem acknowledge_ledger (f : Fleet) (i : Bytes) (ids : List Bytes) (j : Bytes) :
    (f.acknowledge i ids).ledger j =
      if j = i then (f.ledger i).acknowledgeAll (f.acknowledgedKeys i ids) else f.ledger j := by
  rw [acknowledge]
  cases hk : f.acknowledgedKeys i ids with
  | nil =>
      by_cases h : j = i
      · rw [if_pos h, h]; rfl
      · rw [if_neg h]
  | cons key keys =>
      by_cases h : j = i
      · subst h
        rw [if_pos rfl]
        simp only [ledger, Table.get?_alter_self, Option.getD_some]
      · rw [if_neg h]
        simp only [ledger, Table.get?_alter_of_ne h]

/-- The commands that a delivery looks at. -/
def pending (f : Fleet) (i : Bytes) : List Command :=
  f.store.log.ofInstanceAfter i (f.ledger i).watermark ((f.ledger i).window f.perReply).toNat

/-- With a working log the pending commands are read. -/
theorem read_pending (h : f.store.outage = none) (i : Bytes) :
    f.store.ofInstanceAfter i (f.ledger i).watermark ((f.ledger i).window f.perReply).toNat =
      .ok (f.pending i) := by
  rw [CommandStore.ofInstanceAfter, CommandStore.reach, h]
  rfl

/-- A reply bears the commands that the ledger picks. -/
theorem deliver_commands (h : f.store.outage = none) (i : Bytes) (reply : Reply) :
    (f.deliver i reply).1.commands =
      ((f.ledger i).pick f.perReply.toNat (f.pending i)).commands.map Command.delivery := by
  simp only [deliver, read_pending h]
  split <;> split <;> rfl

/-- Delivering advances the ledger of one instance. -/
theorem deliver_ledger (h : f.store.outage = none) (i : Bytes) (reply : Reply) (j : Bytes) :
    (f.deliver i reply).2.ledger j =
      if j = i then
        (f.ledger i).advance ((f.ledger i).pick f.perReply.toNat (f.pending i)).watermark
      else f.ledger j := by
  simp only [deliver, read_pending h]
  by_cases hj : j = i
  · subst hj
    rw [if_pos rfl]
    split
    · rename_i e
      rw [beq_iff_eq] at e
      rw [e, Ledger.advance, if_neg fun hb => Bytes.lt_irrefl _ (Bytes.before_iff.mp hb)]
    · simp only [ledger, Table.get?_insert, if_pos, Option.getD_some]
  · rw [if_neg hj]
    split
    · rfl
    · simp only [ledger, Table.get?_insert, if_neg hj]

/-- A reply to an instance whose ledger stands in its commands has the first of the coming ones that
are not acknowledged. -/
theorem deliver_of_stands {cs past coming : List Command} {acked : Command → Bool} {i : Bytes}
    (ho : f.store.outage = none) (h : f.store.log.Holds cs)
    (hcs : f.store.log.ofInstance i = past ++ coming) (hl : (f.ledger i).Stands past coming acked)
    (hw : f.perReply.toNat + (f.ledger i).ahead.size < 2 ^ 64) (reply : Reply) :
    (f.deliver i reply).1.commands =
      ((coming.filter fun c => !acked c).take f.perReply.toNat).map Command.delivery := by
  have hs : Sorted (past ++ coming) := hcs ▸ h.ofInstance_sorted i
  have hwindow : ((f.ledger i).window f.perReply).toNat =
      f.perReply.toNat + (f.ledger i).ahead.size := by
    rw [Ledger.window, UInt64.toNat_add, UInt64.toNat_ofNat']
    omega
  have hpending : f.pending i = coming.take (f.perReply.toNat + (f.ledger i).ahead.size) := by
    rw [pending, CommandLog.ofInstanceAfter_eq_filter h, hcs, hl.watermark,
      Ledger.filter_past_watermark hs, hwindow]
  rw [deliver_commands ho, hpending, hl.pick hs (Nat.add_le_add_left hl.size.ge _)]

/-! ### What acknowledging records -/

/-- With a working log a command is found if the log has it. -/
theorem find_eq_ok (ho : f.store.outage = none) {id : Bytes} :
    f.store.find id = .ok c ↔ f.store.log.find id = .ok c := by
  rw [CommandStore.find, CommandStore.reach, ho]
  cases f.store.log.find id <;> simp [Except.mapError]

/-- With a working log just the saved commands are found. -/
theorem find_eq_ok_iff (ho : f.store.outage = none) (hr : f.store.log.Records saved)
    {id : Bytes} : f.store.find id = .ok c ↔ c ∈ saved ∧ c.id = id :=
  (find_eq_ok ho).trans hr.find_eq_ok_iff

/-- A command is held for an instance if it was saved for it. -/
theorem holdsFor_iff (hr : f.store.log.Records saved) {i id : Bytes} :
    f.holdsFor i id = true ↔ ∃ c ∈ saved, c.target = i ∧ c.id = id := by
  rw [holdsFor]
  cases hf : f.store.log.find id with
  | ok c =>
      obtain ⟨hc, hid⟩ := hr.find_eq_ok_iff.mp hf
      constructor
      · intro ht
        exact ⟨c, hc, beq_iff_eq.mp ht, hid⟩
      · rintro ⟨d, hd, ht, e⟩
        rw [hr.eq_of_id_eq hc hd (hid.trans e.symm)]
        exact beq_iff_eq.mpr ht
  | error cause =>
      constructor
      · intro h
        cases h
      · rintro ⟨d, hd, -, e⟩
        rw [hr.find_eq_ok_iff.mpr ⟨hd, e⟩] at hf
        cases hf

/-- The keys recorded are those of what is found by the ids, if it is for the instance. -/
theorem mem_acknowledgedKeys_iff {i key : Bytes} {ids : List Bytes} :
    key ∈ f.acknowledgedKeys i ids ↔
      ∃ id ∈ ids, ∃ c, f.store.find id = .ok c ∧ c.target = i ∧ c.orderKey = key := by
  rw [acknowledgedKeys, List.mem_filterMap]
  refine exists_congr fun id => and_congr_right fun _ => ?_
  cases f.store.find id with
  | error cause => simp
  | ok c => simp

/-- In a log without two commands of one id they are those of the instance's own commands among the
ids. -/
theorem mem_acknowledgedKeys (ho : f.store.outage = none) (hr : f.store.log.Records saved)
    {i key : Bytes} {ids : List Bytes} :
    key ∈ f.acknowledgedKeys i ids ↔
      ∃ c ∈ saved.filter (·.target == i), c.id ∈ ids ∧ c.orderKey = key := by
  rw [mem_acknowledgedKeys_iff]
  constructor
  · rintro ⟨id, hid, c, hf, ht, hkey⟩
    obtain ⟨hc, rfl⟩ := (find_eq_ok_iff ho hr).mp hf
    exact ⟨c, List.mem_filter.mpr ⟨hc, beq_iff_eq.mpr ht⟩, hid, hkey⟩
  · rintro ⟨c, hc, hid, hkey⟩
    obtain ⟨hc, ht⟩ := List.mem_filter.mp hc
    exact ⟨c.id, hid, c, (find_eq_ok_iff ho hr).mpr ⟨hc, rfl⟩, beq_iff_eq.mp ht, hkey⟩

/-- More receipts acknowledge more. -/
theorem acknowledgedIn_append (acks acks' : List Receipt) (i : Bytes) (c : Command) :
    acknowledgedIn (acks ++ acks') i c = true ↔
      acknowledgedIn acks i c = true ∨ ⟨i, c.id⟩ ∈ acks' := by
  simp [acknowledgedIn]

/-! ### The invariant -/

/-- The ledgers are what the history of acknowledgements makes of them. -/
structure Delivers (f : Fleet) (acks : List Receipt) (saved : List Command) : Prop where
  outage : f.store.outage = none
  journal : f.store.log.journal = none
  records : f.store.log.Records saved
  stamped : ∀ c ∈ saved, 0 ≤ c.createdAt
  /-- Only what is saved is acknowledged. -/
  known : ∀ r ∈ acks, ∃ c ∈ saved, c.target = r.instanceId ∧ c.id = r.id
  behind : ∀ i, (f.ledger i).IsBehind (saved.filter (·.target == i)) (acknowledgedIn acks i)

/-- The saved commands stand in the order of their keys. -/
theorem Delivers.sorted (h : f.Delivers acks saved) : Sorted saved := h.records.sorted h.stamped

/-- The log shows an instance its saved commands, in order. -/
theorem Delivers.ofInstance (h : f.Delivers acks saved) (i : Bytes) :
    f.store.log.ofInstance i = saved.filter (·.target == i) :=
  CommandLog.ofInstance_eq_filter h.records.holds h.sorted i

/-- Ledgers and log are all that counts. -/
theorem Delivers.congr (h : f.Delivers acks saved) {g : Fleet} (hs : g.store = f.store)
    (hl : g.ledgers = f.ledgers) : g.Delivers acks saved where
  outage := hs ▸ h.outage
  journal := hs ▸ h.journal
  records := hs ▸ h.records
  stamped := h.stamped
  known := h.known
  behind i := by
    have e : g.ledger i = f.ledger i := by rw [ledger, ledger, hl]
    rw [e]
    exact h.behind i

/-- A control plane that was just set up has delivered nothing. -/
theorem Delivers.of_isFresh (h : f.IsFresh) : f.Delivers [] [] := by
  obtain ⟨cursor, plan, shards, log, ids, hlog, hf⟩ := h
  have hlog' : log = { cursor } := by
    rw [CommandLog.setup] at hlog
    split at hlog <;> cases hlog
    rfl
  subst hlog'
  obtain ⟨hs, -, hl, -⟩ := setup_parts hf
  refine ⟨by rw [hs], by rw [hs], by rw [hs]; exact CommandLog.records_nil cursor,
    fun _ hc => absurd hc List.not_mem_nil, fun _ hr => absurd hr List.not_mem_nil, fun i => ?_⟩
  have e : f.ledger i = {} := by rw [ledger, hl]; rfl
  rw [e]
  exact Ledger.isBehind_nil _

/-! ### Saving -/

/-- A command that is new was not acknowledged before. -/
theorem Delivers.saved_new (h : f.Delivers acks saved) (hc : f.store.log.byId.get? c.id = none)
    (i : Bytes) : acknowledgedIn acks i c = false := by
  rw [acknowledgedIn, List.contains_eq_mem, decide_eq_false_iff_not]
  intro hm
  obtain ⟨d, hd, -, e⟩ := h.known _ hm
  exact h.records.holds.id_ne hc hd e

/-- What is saved is not acknowledged yet, so no ledger moves. -/
theorem Delivers.save (h : f.Delivers acks saved) {r : CommandLog.Request} {now : Instant}
    (h₀ : 0 ≤ now) (ht : f.store.log.CanStamp now) :
    (f.step (.save r now)).Delivers acks (saved ++ f.saves (.save r now)) := by
  have hstore : (f.step (.save r now)).store =
      { f.store with
        log := (f.store.log.save f.store.ids now none r).log
        ids := (f.store.log.save f.store.ids now none r).ids } := by
    simp only [step, react, CommandStore.save, h.outage]
  have hsaves : f.saves (.save r now) =
      (f.store.log.save f.store.ids now none r).result.toOption.toList := by
    simp only [saves, CommandStore.save, h.outage]
    cases (f.store.log.save f.store.ids now none r).result <;> rfl
  have hledger (i : Bytes) : (f.step (.save r now)).ledger i = f.ledger i := rfl
  -- a save that is refused draws ids and leaves all that the ledgers are about
  obtain ⟨cause, hres, hlog⟩ | ⟨c, hc, hres, hrec, hj⟩ :=
    h.records.save h.journal ht f.store.ids none r
  · rw [hsaves, hres]
    refine ⟨?_, ?_, ?_, ?_, ?_, ?_⟩
    · rw [hstore]; exact h.outage
    · rw [hstore, hlog]; exact h.journal
    · rw [hstore, hlog]; simpa [Except.toOption] using h.records
    · simpa [Except.toOption] using h.stamped
    · simpa [Except.toOption] using h.known
    · simpa [Except.toOption, hledger] using h.behind
  · have hone : f.saves (.save r now) = [c] := by rw [hsaves, hres]; rfl
    have htime : now ≤ c.createdAt := hc.createdAt ▸ CommandLog.le_nextTime ht
    rw [hone]
    refine ⟨?_, ?_, ?_, fun d hd => ?_, fun a ha => ?_, fun i => ?_⟩
    · rw [hstore]; exact h.outage
    · rw [hstore]; exact hj
    · rw [hstore]; exact hrec
    · rcases List.mem_append.mp hd with hd | hd
      · exact h.stamped d hd
      · rw [List.mem_singleton.mp hd]
        exact Int64.le_trans h₀ htime
    · obtain ⟨d, hd, e⟩ := h.known a ha
      exact ⟨d, List.mem_append_left _ hd, e⟩
    · rw [hledger, List.filter_append, List.filter_singleton]
      cases c.target == i with
      | true => exact (h.behind i).append (h.saved_new hc.unused i)
      | false => rw [cond_false, List.append_nil]; exact h.behind i

/-! ### Serving -/

/-- No ledger holds so many keys that the bound of a read wraps around. -/
theorem Delivers.window_toNat (h : f.Delivers acks saved) (hm : f.perReply.toNat < 2 ^ 63)
    {l : Ledger} {past coming : List Command} {acked : Command → Bool}
    (hl : l.Stands past coming acked) (hc : coming.length ≤ saved.length) :
    (l.window f.perReply).toNat = f.perReply.toNat + l.ahead.size := by
  have hsize : l.ahead.size ≤ 2 ^ 63 := calc
    l.ahead.size = coming.countP acked := hl.size
    _ ≤ coming.length := List.countP_le_length
    _ ≤ saved.length := hc
    _ ≤ 2 ^ 63 := h.records.length_le h.stamped
  rw [Ledger.window, UInt64.toNat_add, UInt64.toNat_ofNat']
  omega

/-- Of the commands of an instance those are acknowledged that were before, and those in the
message. -/
theorem Delivers.acknowledged (h : f.Delivers acks saved) (i : Bytes) (ids : List Bytes) :
    ∀ c ∈ saved.filter (·.target == i),
      acknowledgedIn (acks ++ (ids.filter (f.holdsFor i)).map (⟨i, ·⟩)) i c = true ↔
        acknowledgedIn acks i c = true ∨ c.orderKey ∈ f.acknowledgedKeys i ids := by
  intro c hc
  obtain ⟨hmem, ht⟩ := List.mem_filter.mp hc
  rw [acknowledgedIn_append, mem_acknowledgedKeys h.outage h.records]
  refine or_congr_right ?_
  constructor
  · intro hm
    obtain ⟨id, hid, e⟩ := List.mem_map.mp hm
    cases e
    exact ⟨c, hc, (List.mem_filter.mp hid).1, rfl⟩
  · rintro ⟨d, hd, hid, e⟩
    rw [(h.sorted.filter _).eq_of_orderKey_eq hd hc e] at hid
    have hholds : f.holdsFor i c.id = true :=
      (holdsFor_iff h.records).mpr ⟨c, hmem, beq_iff_eq.mp ht, rfl⟩
    exact List.mem_map.mpr ⟨c.id, List.mem_filter.mpr ⟨hid, hholds⟩, rfl⟩

/-- Other instances have acknowledged what they had. -/
theorem acknowledgedIn_of_ne {i j : Bytes} (hj : j ≠ i) (acks : List Receipt) (ids : List Bytes) :
    acknowledgedIn (acks ++ ids.map (⟨i, ·⟩)) j = acknowledgedIn acks j := by
  funext c
  rw [Bool.eq_iff_iff, acknowledgedIn_append, or_iff_left]
  intro hm
  obtain ⟨id, -, e⟩ := List.mem_map.mp hm
  cases e
  exact hj rfl

/-- Recording the acknowledgements of a message and answering it. -/
theorem Delivers.serve (h : f.Delivers acks saved) (hm : f.perReply.toNat < 2 ^ 63) (i : Bytes)
    (ids : List Bytes) (reply : Reply) :
    let acks' := acks ++ (ids.filter (f.holdsFor i)).map (⟨i, ·⟩)
    let out := (f.acknowledge i ids).deliver i reply
    out.1.commands =
        (((saved.filter (·.target == i)).filter fun c => !acknowledgedIn acks' i c).take
          f.perReply.toNat).map Command.delivery ∧
      out.2.Delivers acks' saved := by
  intro acks' out
  have hsorted : Sorted (saved.filter (·.target == i)) := h.sorted.filter _
  obtain ⟨cs, hcs⟩ : ∃ cs, cs = saved.filter (·.target == i) := ⟨_, rfl⟩
  obtain ⟨l, hl⟩ : ∃ l, l = (f.ledger i).acknowledgeAll (f.acknowledgedKeys i ids) := ⟨_, rfl⟩
  have hstands : l.Stands (cs.takeWhile (acknowledgedIn acks i))
      (cs.dropWhile (acknowledgedIn acks i)) (acknowledgedIn acks' i) := by
    rw [hl, hcs]
    refine (h.behind i).acknowledgeAll hsorted (fun key hk => ?_) (h.acknowledged i ids)
    obtain ⟨c, hc, -, e⟩ := (mem_acknowledgedKeys h.outage h.records).mp hk
    exact ⟨c, hc, e⟩
  have hfront : ∀ c ∈ cs.takeWhile (acknowledgedIn acks i), acknowledgedIn acks' i c = true :=
    fun c hc => (acknowledgedIn_append _ _ _ _).mpr
      (.inl (List.all_eq_true.mp List.all_takeWhile c hc))
  -- the bound of the read leaves room for a full reply behind all that is acknowledged
  have hwindow : (l.window f.perReply).toNat = f.perReply.toNat + l.ahead.size :=
    h.window_toNat hm hstands
      (((cs.dropWhile_sublist _).trans (hcs ▸ List.filter_sublist)).length_le)
  obtain ⟨hcommands, hbehind⟩ := hstands.reply
    (by rw [List.takeWhile_append_dropWhile, hcs]; exact hsorted) hfront hwindow.ge
  rw [List.takeWhile_append_dropWhile] at hcommands hbehind
  have hout : (f.acknowledge i ids).store.outage = none := by rw [acknowledge_store]; exact h.outage
  have hledger : (f.acknowledge i ids).ledger i = l := by rw [acknowledge_ledger, if_pos rfl, hl]
  have hpending : (f.acknowledge i ids).pending i =
      (cs.filter fun c => Bytes.before l.watermark c.orderKey).take
        (l.window f.perReply).toNat := by
    rw [pending, hledger, acknowledge_store, acknowledge_perReply,
      CommandLog.ofInstanceAfter_eq_filter h.records.holds, h.ofInstance, hcs]
  refine ⟨?_, ⟨?_, ?_, ?_, h.stamped, ?_, fun j => ?_⟩⟩
  · rw [deliver_commands hout, hledger, hpending, acknowledge_perReply, hcommands, hcs]
  · rw [deliver_store]; exact hout
  · rw [deliver_store, acknowledge_store]; exact h.journal
  · rw [deliver_store, acknowledge_store]; exact h.records
  · intro r hr
    rcases List.mem_append.mp hr with hr | hr
    · exact h.known r hr
    · obtain ⟨id, hid, rfl⟩ := List.mem_map.mp hr
      exact (holdsFor_iff h.records).mp (List.mem_filter.mp hid).2
  · rw [deliver_ledger hout, hledger, hpending, acknowledge_perReply]
    by_cases hj : j = i
    · rw [if_pos hj, hj, ← hcs]
      exact hbehind
    · rw [if_neg hj, acknowledge_ledger, if_neg hj, acknowledgedIn_of_ne hj]
      exact h.behind j

/-- What a served message is answered, and what it does to the ledgers. -/
theorem Delivers.serves (h : f.Delivers acks saved) (hm : f.perReply.toNat < 2 ^ 63) {e : Event}
    {conn : Bytes} {m : AgentMessage} {now : Instant} {s s' : Session} {registry : Registry}
    (hs : f.Serves e conn m now s s' registry) :
    (f.reply? e).map (·.commands) =
        some ((((saved.filter (·.target == m.instanceId)).filter fun c =>
          !acknowledgedIn (acks ++ f.receipts e) m.instanceId c).take f.perReply.toNat).map
            Command.delivery) ∧
      (f.step e).Delivers (acks ++ f.receipts e) saved := by
  obtain ⟨g, hg⟩ : ∃ g, g = (f.keep conn (Session.learn s' m) registry).recordReport conn m
      (Group.resolve (Session.learn s' m).identifying f.groups.snapshot) now := ⟨_, rfl⟩
  have hstore : g.store = f.store := by rw [hg, recordReport_store]; rfl
  have hledgers : g.ledgers = f.ledgers := by rw [hg, recordReport_ledgers]; rfl
  have hmost : g.perReply = f.perReply := by rw [hg, recordReport_perReply]; rfl
  have hholds : f.holdsFor m.instanceId = g.holdsFor m.instanceId := by
    funext id
    rw [holdsFor, holdsFor, hstore]
  obtain ⟨reply, hout⟩ : ∃ reply, f.receive conn m now =
      (g.acknowledge m.instanceId m.acknowledged).deliver m.instanceId reply :=
    ⟨_, by rw [hs.received, hg]; rfl⟩
  rw [reply?_of_said hs.said, step_of_said hs.said, hs.receipts, hout, hholds, ← hmost]
  obtain ⟨hcommands, hdelivers⟩ :=
    (h.congr hstore hledgers).serve (hmost ▸ hm) m.instanceId m.acknowledged reply
  exact ⟨congrArg some hcommands, hdelivers⟩

/-! ### Runs -/

/-- Without a message that is processed nothing is acknowledged. -/
theorem receipts_of_processedFor_eq_none {e : Event} (h : f.processedFor e = none) :
    f.receipts e = [] := by
  simp only [receipts, h]

/-- What is no save saves nothing. -/
theorem saves_eq_nil {e : Event} (h : ∀ r now, e ≠ .save r now) : f.saves e = [] := by
  cases e with
  | save r now => exact absurd rfl (h r now)
  | connect | message | frame | close | createGroup | updateGroup | deleteGroup => rfl

/-- Every event keeps the ledgers right. -/
theorem Delivers.step (h : f.Delivers acks saved) (hm : f.perReply.toNat < 2 ^ 63) {e : Event}
    (ht : f.IsTimely e) : (f.step e).Delivers (acks ++ f.receipts e) (saved ++ f.saves e) := by
  -- only a save and a message that is served change the log or a ledger
  cases hsaid : e.said? with
  | some said =>
      have hn : ∀ r now, e ≠ .save r now := fun r now he => by rw [he] at hsaid; cases hsaid
      rw [saves_eq_nil hn, List.append_nil]
      obtain ⟨s, s', registry, hs⟩ | ⟨hp, hstore, hledgers⟩ := f.serves_or_idle hsaid
      · exact (h.serves hm hs).2
      · rw [receipts_of_processedFor_eq_none hp, List.append_nil]
        exact h.congr hstore hledgers
  | none =>
      have hp : f.processedFor e = none := by simp only [processedFor, hsaid]
      rw [receipts_of_processedFor_eq_none hp, List.append_nil]
      by_cases hn : ∀ r now, e ≠ .save r now
      · obtain ⟨hstore, hledgers⟩ := f.idle_of_silent hsaid hn
        rw [saves_eq_nil hn, List.append_nil]
        exact h.congr hstore hledgers
      · push Not at hn
        obtain ⟨r, now, rfl⟩ := hn
        exact h.save ht.1 ht.2

/-- Every run keeps the ledgers right. -/
theorem Delivers.run {es : List Event} (h : f.Delivers acks saved)
    (hm : f.perReply.toNat < 2 ^ 63) (ht : f.Timely es) :
    (f.run es).Delivers (acks ++ f.history es) (saved ++ f.savedIn es) := by
  induction es generalizing f acks saved with
  | nil => simpa [history, savedIn] using h
  | cons e es ih =>
      rw [run_cons, history, savedIn, ← List.append_assoc, ← List.append_assoc]
      exact ih (h.step hm ht.1) (by rw [step_perReply]; exact hm) ht.2

/-- After every run the ledgers stand where the receipts and the saved commands put them. -/
theorem Delivers.of_run {es : List Event} (hf : f₀.IsFresh) (hm : f₀.perReply.toNat < 2 ^ 63)
    (ht : f₀.Timely es) : (f₀.run es).Delivers (f₀.history es) (f₀.savedIn es) :=
  (of_isFresh hf).run hm ht

/-! ### A small control plane -/

/-- Three commands for instance 7, the clock standing still and then going back. -/
def sampleSaves : List Event :=
  [.save ⟨.restart, [7], .null⟩ 5, .save ⟨.restart, [7], .null⟩ 5, .save ⟨.restart, [7], .null⟩ 4]

theorem sample_timely : sample.Timely sampleSaves := by
  refine ⟨⟨by decide, ?_⟩, ⟨by decide, ?_⟩, ⟨by decide, ?_⟩, trivial⟩
  · intro t ht
    cases ht
  · intro t ht hn
    cases ht
    decide
  · intro t ht hn
    cases ht
    decide

/-! ### Replies -/

/-- The commands of an instance are those saved for it, in order of creation, and every message that
is processed for it is answered with the first of them that are not acknowledged. -/
theorem reply_commands_eq_first_unacknowledged {es : List Event} {e : Event} {i : Bytes}
    (hf : f₀.IsFresh) (hm : f₀.perReply.toNat < 2 ^ 63) (ht : f₀.Timely es)
    (hp : (f₀.run es).processedFor e = some i) :
    let cs := (f₀.run es).store.log.ofInstance i
    cs = (f₀.savedIn es).filter (·.target == i) ∧
      cs.Pairwise (fun a b => a.createdAt < b.createdAt) ∧
      ((f₀.run es).reply? e).map (·.commands) =
        some (((cs.filter fun c => !acknowledgedIn (f₀.history (es ++ [e])) i c).take
          f₀.perReply.toNat).map Command.delivery) := by
  intro cs
  have h := Delivers.of_run hf hm ht
  have hmost : (f₀.run es).perReply = f₀.perReply := f₀.run_perReply es
  have hcs : cs = (f₀.savedIn es).filter (·.target == i) := h.ofInstance i
  have hlast : f₀.history (es ++ [e]) = f₀.history es ++ (f₀.run es).receipts e := by
    rw [history_append, history, history, List.append_nil]
  refine ⟨hcs, hcs ▸ h.records.rising.filter _, ?_⟩
  cases hsaid : e.said? with
  | none => simp only [processedFor, hsaid] at hp; cases hp
  | some said =>
      obtain ⟨s, s', registry, hs⟩ | ⟨hn, -⟩ := (f₀.run es).serves_or_idle hsaid
      · have hi : said.2.1.instanceId = i := Option.some_inj.mp (hs.processedFor.symm.trans hp)
        rw [← hi] at hcs ⊢
        rw [(h.serves (hmost ▸ hm) hs).1, hmost, hlast, hcs, hi]
      · rw [hn] at hp; cases hp

/-- The third command is acknowledged and then the first: the reply has the second. -/
theorem reply_commands_past_gap :
    ((sample.run (sampleSaves ++ [.connect [9] 6, sampleMessage [9] [[3]]])).reply?
      (sampleMessage [9] [[1]])).map (·.commands) = some [⟨[2], .restart, .obj []⟩] := by
  have ht : sample.Timely (sampleSaves ++ [.connect [9] 6, sampleMessage [9] [[3]]]) :=
    (timely_append _ _ _).mpr ⟨sample_timely, trivial, trivial, trivial⟩
  have hp : (sample.run (sampleSaves ++ [.connect [9] 6, sampleMessage [9] [[3]]])).processedFor
      (sampleMessage [9] [[1]]) = some [7] := by decide +kernel
  exact (reply_commands_eq_first_unacknowledged sample_isFresh (by decide) ht hp).2.2.trans rfl

/-! ### Progress -/

/-- How far an instance has acknowledged these commands. -/
def progressOf (cs : List Command) (acked : Command → Bool) : Progress :=
  ⟨Ledger.watermarkAfter (cs.takeWhile acked), (cs.dropWhile acked).countP acked⟩

/-- What is shown of an instance's progress follows from what it acknowledged. -/
theorem Delivers.progress (h : f.Delivers acks saved) (i : Bytes) :
    f.progress i = progressOf (f.store.log.ofInstance i) (acknowledgedIn acks i) := by
  rw [h.ofInstance]
  exact (h.behind i).progress

/-- What is not acknowledged is past the watermark. -/
theorem watermark_lt_of_not_acked {cs : List Command} {acked : Command → Bool} (hs : Sorted cs)
    (hc : c ∈ cs) (ha : acked c = false) : (progressOf cs acked).watermark < c.orderKey := by
  rw [← cs.takeWhile_append_dropWhile (p := acked)] at hs hc
  rcases List.mem_append.mp hc with hc | hc
  · rw [List.all_eq_true.mp List.all_takeWhile c hc] at ha
    cases ha
  · exact Ledger.watermarkAfter_lt hs hc

/-- With more commands and more of them acknowledged the watermark is the same or later. -/
theorem progressOf_watermark_le {cs more : List Command} {acked acked' : Command → Bool}
    (hs : Sorted (cs ++ more)) (ha : ∀ c, acked c = true → acked' c = true) :
    (progressOf (cs ++ more) acked').watermark = (progressOf cs acked).watermark ∨
      (progressOf cs acked).watermark < (progressOf (cs ++ more) acked').watermark := by
  have hfront : ∀ c ∈ cs.takeWhile acked, acked' c = true := fun c hc =>
    ha c (List.all_eq_true.mp List.all_takeWhile c hc)
  have e : (cs ++ more).takeWhile acked' =
      cs.takeWhile acked ++ (cs.dropWhile acked ++ more).takeWhile acked' := by
    rw [← List.takeWhile_append_of_pos hfront, ← List.append_assoc,
      List.takeWhile_append_dropWhile]
  rw [progressOf, e]
  refine Ledger.watermarkAfter_le ?_
  rw [← e]
  exact List.Pairwise.sublist (List.takeWhile_sublist _) hs

/-- The progress of an instance is a function of its commands and of what is acknowledged.  Its
watermark is in front of everything that is not acknowledged and never goes back, and on another run
the same commands and the same acknowledgements make the same progress. -/
theorem progress_eq_of_history {es : List Event} (hf : f₀.IsFresh) (hm : f₀.perReply.toNat < 2 ^ 63)
    (ht : f₀.Timely es) (i : Bytes) :
    let cs := (f₀.run es).store.log.ofInstance i
    let acked := acknowledgedIn (f₀.history es) i
    let progress := (f₀.run es).progress i
    progress = progressOf cs acked ∧
      (∀ c ∈ cs, acked c = false → progress.watermark < c.orderKey) ∧
      (∀ es', f₀.Timely (es ++ es') →
        ((f₀.run (es ++ es')).progress i).watermark = progress.watermark ∨
          progress.watermark < ((f₀.run (es ++ es')).progress i).watermark) ∧
      ∀ (f₁ : Fleet) (es₁ : List Event), f₁.IsFresh → f₁.perReply.toNat < 2 ^ 63 →
        f₁.Timely es₁ → (f₁.run es₁).store.log.ofInstance i = cs →
        (∀ id, ⟨i, id⟩ ∈ f₁.history es₁ ↔ ⟨i, id⟩ ∈ f₀.history es) →
        (f₁.run es₁).progress i = progress := by
  intro cs acked progress
  have h := Delivers.of_run hf hm ht
  have hprogress : progress = progressOf cs acked := h.progress i
  have hsorted : Sorted cs := by
    have e : cs = (f₀.savedIn es).filter (·.target == i) := h.ofInstance i
    exact e ▸ h.sorted.filter _
  refine ⟨hprogress, fun c hc ha => ?_, fun es' ht' => ?_, fun f₁ es₁ hf₁ hm₁ ht₁ hcs hacks => ?_⟩
  · rw [hprogress]
    exact watermark_lt_of_not_acked hsorted hc ha
  · -- a longer run has more commands behind these and more acknowledgements
    have h' := Delivers.of_run hf hm ht'
    have hmore : (f₀.run (es ++ es')).store.log.ofInstance i =
        cs ++ ((f₀.run es).savedIn es').filter (·.target == i) := by
      rw [h'.ofInstance, savedIn_append, List.filter_append, ← h.ofInstance]
    have hsorted' := h'.sorted.filter (·.target == i)
    rw [← h'.ofInstance, hmore] at hsorted'
    rw [h'.progress, hmore, hprogress]
    refine progressOf_watermark_le hsorted' fun c hc => ?_
    rw [history_append]
    exact (acknowledgedIn_append _ _ _ _).mpr (.inl hc)
  · -- which commands are acknowledged is a question of membership, so the order does not matter
    have hacked : acknowledgedIn (f₁.history es₁) i = acked := by
      funext c
      rw [Bool.eq_iff_iff, acknowledgedIn, List.contains_iff_mem, hacks, ← List.contains_iff_mem]
      rfl
    rw [(Delivers.of_run hf₁ hm₁ ht₁).progress, hcs, hacked, hprogress]

/-- The first command and the third are acknowledged, in one message or in two that come in the
other order on another connection. -/
theorem progress_past_gap :
    let es := sampleSaves ++ [.connect [9] 6, sampleMessage [9] [[1], [3]]]
    let es₁ := sampleSaves ++
      [.connect [8] 6, sampleMessage [8] [[3], [3]], sampleMessage [8] [[1]]]
    (sample.run es).progress [7] = ⟨Command.stamp 5 ++ [0x2f, 1], 1⟩ ∧
      (sample.run es₁).progress [7] = (sample.run es).progress [7] := by
  intro es es₁
  have ht : sample.Timely es := (timely_append _ _ _).mpr ⟨sample_timely, trivial, trivial, trivial⟩
  have ht₁ : sample.Timely es₁ :=
    (timely_append _ _ _).mpr ⟨sample_timely, trivial, trivial, trivial, trivial⟩
  obtain ⟨h, -, -, hcongr⟩ := progress_eq_of_history sample_isFresh (by decide) ht [7]
  have hist : sample.history es = [⟨[7], [1]⟩, ⟨[7], [3]⟩] := by decide +kernel
  have hist₁ : sample.history es₁ = [⟨[7], [3]⟩, ⟨[7], [3]⟩, ⟨[7], [1]⟩] := by decide +kernel
  refine ⟨h.trans (by decide +kernel),
    hcongr sample es₁ sample_isFresh (by decide) ht₁ rfl fun id => ?_⟩
  rw [hist, hist₁]
  simp only [List.mem_cons, Receipt.mk.injEq, true_and, List.not_mem_nil, or_false]
  tauto

end Fleet

end FleetControl
