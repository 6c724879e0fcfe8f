import FleetControl.Proofs.Command.Log
import FleetControl.Proofs.Session.Locality

/-!
# Interleaving — events of different connections

Two events on different connections can come in either order, unless both are messages of one
instance: each is answered as if the other had not been, and the control plane is the same
afterwards (`order_of_connections_free`).  This goes for a close and a message of one instance too,
since a close drops only a connection that the record still names, and a report names its own.

A save changes nothing that a message for another instance looks at (`sameFor_save`): a new command
counts as acknowledged for its own instance alone, whatever ids the message acknowledges.
-/

namespace FleetControl

/-! ### Saves for another instance -/

theorem CommandStore.toOption_find (s : CommandStore) (id : Bytes) :
    (s.find id).toOption = if s.outage.isSome then none else s.log.byId.get? id := by
  rw [find, reach, CommandLog.find]
  cases s.outage with
  | some fault => rfl
  | none => cases s.log.byId.get? id <;> rfl

/-- A save leaves alone what the store tells of the commands of another instance. -/
theorem CommandStore.save_elsewhere {r : CommandLog.Request} {i : Bytes} (hi : r.target ≠ i)
    (s : CommandStore) (now : Instant) (room : Option ℕ) :
    let s' := (s.save now room r).2
    (∀ after limit, s'.ofInstanceAfter i after limit = s.ofInstanceAfter i after limit) ∧
      ∀ id, (s'.find id).toOption.filter (·.target == i) =
        (s.find id).toOption.filter (·.target == i) := by
  intro s'
  cases ho : s.outage with
  | some fault =>
      have hsame : s' = s := by simp only [s', save, ho]
      rw [hsame]
      exact ⟨fun _ _ => rfl, fun _ => rfl⟩
  | none =>
      obtain ⟨hinstance, hfound⟩ := s.log.save_elsewhere hi s.ids now room
      have hs' : s' = { s with log := (s.log.save s.ids now room r).log
                               ids := (s.log.save s.ids now room r).ids } := by
        simp only [s', save, ho]
      refine ⟨fun after limit => ?_, fun id => ?_⟩
      · rw [hs', ofInstanceAfter, ofInstanceAfter, CommandLog.ofInstanceAfter,
          CommandLog.ofInstanceAfter, hinstance]
        rfl
      · rw [toOption_find, toOption_find, hs', ho]
        exact hfound id

namespace Fleet

variable {f : Fleet} {e : Event} {conn : Bytes} {m : AgentMessage} {now time : Instant}
  {room : Option ℕ} {r : CommandLog.Request}

theorem acknowledgedKeys_eq (f : Fleet) (i : Bytes) (ids : List Bytes) :
    f.acknowledgedKeys i ids = ids.filterMap fun id =>
      ((f.store.find id).toOption.filter (·.target == i)).map Command.orderKey := by
  rw [acknowledgedKeys]
  congr 1
  funext id
  cases f.store.find id with
  | error => rfl
  | ok c => by_cases h : c.target = i <;> simp [Except.toOption, Option.filter, h]

/-- Saves a command: the answer, and the control plane afterwards.  `room` is what the journal's
file can still grow by. -/
def save (f : Fleet) (now : Instant) (room : Option ℕ) (r : CommandLog.Request) :
    Except Fault Command × Fleet :=
  ((f.store.save now room r).1, { f with store := (f.store.save now room r).2 })

theorem step_save (f : Fleet) (r : CommandLog.Request) (now : Instant) :
    f.step (.save r now) = (f.save now none r).2 := rfl

/-- A message for another instance does not see a save. -/
theorem sameFor_save (h : e.said? = some (conn, m, now)) (hi : r.target ≠ m.instanceId) :
    SameFor e f (f.save time room r).2 where
  connection _ _ := ⟨rfl, rfl⟩
  instance_ i hnames := by
    obtain rfl : m.instanceId = i := Option.some.inj ((Event.names?_of_said h).symm.trans hnames)
    obtain ⟨hpending, hfound⟩ := f.store.save_elsewhere hi time room
    refine ⟨rfl, fun ids => ?_, hpending, rfl, rfl⟩
    rw [acknowledgedKeys_eq, acknowledgedKeys_eq]
    congr 1
    funext id
    rw [show (f.save time room r).2.store = (f.store.save time room r).2 from rfl, hfound]

/-- Events on different connections are answered the same and leave the same in either order, unless
both are messages of one instance; and so are a message and a save for another instance. -/
theorem order_of_connections_free (f : Fleet) :
    (∀ e₁ e₂ c₁ c₂, e₁.conn? = some c₁ → e₂.conn? = some c₂ → c₁ ≠ c₂ →
      (∀ i, e₁.names? = some i → e₂.names? ≠ some i) →
      (f.step e₁).answered e₂ = f.answered e₂ ∧ (f.step e₂).answered e₁ = f.answered e₁ ∧
        (f.step e₁).step e₂ = (f.step e₂).step e₁) ∧
    ∀ e conn m now, e.said? = some (conn, m, now) → ∀ time room r, r.target ≠ m.instanceId →
      (f.save time room r).2.answered e = f.answered e ∧
        ((f.step e).save time room r).1 = (f.save time room r).1 ∧
        ((f.step e).save time room r).2 = (f.save time room r).2.step e := by
  constructor
  · intro e₁ e₂ c₁ c₂ h₁ h₂ hc hn
    obtain ⟨d₁, hfits₁, hlocal₁⟩ := f.locality h₁
    obtain ⟨d₂, hfits₂, hlocal₂⟩ := f.locality h₂
    have hn' : ∀ i, e₂.names? = some i → e₁.names? ≠ some i := fun i hi hi' => hn i hi' hi
    have hstep₁ : f.step e₁ = f.change c₁ d₁ := (hlocal₁ f (sameFor_refl e₁ f)).2
    have hstep₂ : f.step e₂ = f.change c₂ d₂ := (hlocal₂ f (sameFor_refl e₂ f)).2
    obtain ⟨hanswer₂, hafter₂⟩ := hlocal₂ _ (sameFor_change hfits₁ h₂ hc hn)
    obtain ⟨hanswer₁, hafter₁⟩ := hlocal₁ _ (sameFor_change hfits₂ h₁ hc.symm hn')
    rw [hstep₁, hstep₂]
    refine ⟨hanswer₂, hanswer₁, ?_⟩
    rw [hafter₂, hafter₁, change_comm hfits₁ hfits₂ hc hn]
  · intro e conn m now h time room r hi
    obtain ⟨d, -, hlocal⟩ := f.locality (Event.conn?_of_said h)
    have hstep : f.step e = f.change conn d := (hlocal f (sameFor_refl e f)).2
    obtain ⟨hanswer, hafter⟩ := hlocal _ (sameFor_save h hi)
    rw [hstep, hafter]
    exact ⟨hanswer, rfl, rfl⟩

/-- Instance 7 comes back on connection 8 before its connection 9 is closed, and acknowledges a
command while one is saved for instance 6. -/
theorem late_close_of_sample :
    let f := sample.run [.connect [9] 6, sampleMessage [9] [], .connect [8] 7]
    let back := sampleMessage [8] [[1]]
    let r : CommandLog.Request := ⟨.restart, [6], .null⟩
    (f.step (.close [9])).step back = (f.step back).step (.close [9]) ∧
      (f.step (.close [9])).answered back = f.answered back ∧
      (f.step back).step (.save r 8) = (f.step (.save r 8)).step back ∧
      (((f.step back).step (.close [9])).agents.find [7]).toOption.map (·.connection) =
        some (some [8]) := by
  intro f back r
  obtain ⟨hevents, hsaves⟩ := f.order_of_connections_free
  have hnames : ∀ i, (Event.close [9]).names? = some i → back.names? ≠ some i := nofun
  obtain ⟨hanswer, -, hsame⟩ := hevents (.close [9]) back [9] [8] rfl rfl (by decide) hnames
  obtain ⟨-, -, hsaved⟩ := hsaves back [8] _ 8 rfl 8 none r (by decide)
  rw [← step_save, ← step_save] at hsaved
  exact ⟨hsame, hanswer, hsaved, by decide +kernel⟩

end Fleet

end FleetControl
