import FleetControl.Proofs.Session.Outcome

/-!
# Coherence — sessions, registry and agent records tell the same

The registry, the session table and the agent records are keyed apart and changed apart, and within
a session the state is kept apart from the instance.  A session is sound if these two tell the same
and it is not closed (`Session.IsSound`); every session that an event leaves is (`HasSound.step`).

`Coherent` is what ties the tables together: a connection is bound in the registry as it is in its
session, the instance of a session has a record, and a record names no connection but one whose
session carries its instance.  Every event preserves it (`Coherent.step`), so it holds after every
run of a control plane that was just set up (`Coherent.of_run`).
-/

namespace FleetControl

/-- What holds of every session that is kept: it is not closed, and it is identified just if it
carries an instance. -/
structure Session.IsSound (s : Session) : Prop where
  isOpen : s.state ≠ .closed
  identified_iff : s.state = .identified ↔ s.instanceId.isSome = true

/-- A new session is connected and carries nothing. -/
theorem Session.isSound_new : ({} : Session).IsSound := ⟨by decide, by decide⟩

/-- What a session learns is neither its state nor its instance. -/
theorem Session.IsSound.learn {s : Session} (h : s.IsSound) (m : AgentMessage) :
    (Fleet.Session.learn s m).IsSound :=
  ⟨h.isOpen, h.identified_iff⟩

/-- A sound session is identified as the instance that it carries. -/
theorem Session.IsSound.identifiedAs_eq {s : Session} (h : s.IsSound) :
    s.identifiedAs = s.instanceId := by
  rw [identifiedAs]
  cases hs : s.state with
  | identified => rfl
  | closed => exact absurd hs h.isOpen
  | connected =>
      have hnone : ¬ s.instanceId.isSome = true := fun hi => by
        have hidentified := h.identified_iff.mpr hi
        rw [hs] at hidentified
        cases hidentified
      exact (Option.not_isSome_iff_eq_none.mp hnone).symm

namespace Fleet

variable {f f₀ : Fleet} {e : Event} {conn i : Bytes} {m : AgentMessage} {now : Instant}
  {s s' : Session} {registry : Registry}

/-! ### Sessions -/

/-- A session that carries the instance of a message is sound, whatever it was before. -/
theorem Carries.isSound (h : f.Carries conn s m s' registry) : s'.IsSound := by
  refine ⟨?_, ?_⟩
  · rw [h.state]; decide
  · rw [h.state, h.instanceId]; simp

/-- Every session is sound. -/
def HasSound (f : Fleet) : Prop := ∀ conn s, f.sessions.get? conn = some s → s.IsSound

/-- A connection whose session is sound is open. -/
theorem HasSound.isOpen (h : f.HasSound) (hs : f.sessions.get? conn = some s) : f.IsOpen conn :=
  ⟨s, hs, (h conn s hs).isOpen⟩

/-- A sound session may be kept among sound ones. -/
theorem HasSound.insert {g : Fleet} (h : f.HasSound) (hs : s.IsSound)
    (hg : g.sessions = f.sessions.insert conn s) : g.HasSound := by
  intro other s' hs'
  rw [hg, Table.get?_insert] at hs'
  split at hs'
  · cases hs'; exact hs
  · exact h other s' hs'

/-- Every event leaves the sessions sound. -/
theorem HasSound.step (h : f.HasSound) (e : Event) : (f.step e).HasSound := by
  cases f.outcome e with
  | idle _ _ hstep | heard _ _ hstep | saved _ hstep | regrouped _ _ _ hstep =>
      rw [hstep]
      exact h
  | undescribed _ hs _ _ hstep =>
      rw [hstep]
      exact h.insert ((h _ _ hs).learn _) rfl
  | served hserves => exact h.insert (hserves.carries.isSound.learn _) hserves.step_sessions
  | opened _ _ hstep =>
      rw [hstep]
      exact h.insert Session.isSound_new rfl
  | @closed conn _ hstep =>
      rw [hstep]
      intro other s hs
      rw [get?_disconnect_sessions] at hs
      split at hs
      · cases hs
      · exact h other s hs

/-! ### What ties the tables together -/

/-- The registry, the sessions and the agent records tell the same. -/
structure Coherent (f : Fleet) : Prop where
  sound : f.HasSound
  registered : f.registry.binding = f.binding
  named : ∀ {conn i}, f.binding conn = some (some i) → i ≠ []
  recorded : ∀ {conn i}, f.binding conn = some (some i) → ∃ c, f.agents.carrier i = some c
  carried : ∀ {conn i}, f.agents.carrier i = some (some conn) → f.binding conn = some (some i)
  keyed : f.agents.Keyed

/-- Empty tables tell the same. -/
theorem Coherent.of_isSetUp (h : f.IsSetUp) : f.Coherent := by
  obtain ⟨cursor, plan, store, hf⟩ := h
  obtain ⟨-, hs, -, -, hr, ha⟩ := setup_parts hf
  have hbinding : f.binding = fun _ => none := by
    funext conn
    rw [binding, hs]
    rfl
  have hcarrier (i : Bytes) : f.agents.carrier i = none := by
    rw [AgentStore.carrier, ha, Option.map_none]
  refine ⟨fun conn s h => ?_, ?_, fun h => ?_, fun h => ?_, fun h => ?_, fun i a h => ?_⟩
  · rw [hs] at h; cases h
  · funext conn
    rw [hbinding, Registry.binding, hr, Option.map_none]
  · rw [hbinding] at h; cases h
  · rw [hbinding] at h; cases h
  · rw [hcarrier] at h; cases h
  · rw [ha] at h; cases h

/-! ### Messages that are served -/

/-- A message is served for the instance that its session is bound to, or on one that is not bound
yet. -/
theorem Serves.binding (h : f.Serves e conn m now s s' registry) :
    f.binding conn = some none ∨ f.binding conn = some (some m.instanceId) := by
  cases h.carries with
  | before hs hi =>
      exact .inr (binding_eq_of_session h.session (Session.identifiedAs_eq_some_iff.mpr ⟨hs, hi⟩))
  | binding hs =>
      exact .inl (binding_eq_of_session h.session (Session.identifiedAs_of_connected hs))

/-- A message is served for an instance with an id, and the registry has it bound to that. -/
theorem Serves.registered (h : f.Serves e conn m now s s' registry) (hf : f.Coherent) :
    m.instanceId ≠ [] ∧ (f.step e).registry.binding =
      Function.update f.registry.binding conn (some (some m.instanceId)) := by
  have htouch : (f.heard conn now).registry.binding = f.registry.binding :=
    f.registry.binding_touch conn now
  have hidentified := h.carries.identifiedAs
  rw [h.step_registry, ← htouch]
  cases h.carries with
  | before =>
      have hb : f.binding conn = some (some m.instanceId) :=
        binding_eq_of_session h.session hidentified
      refine ⟨hf.named hb, ?_⟩
      rw [← hb, ← hf.registered, ← htouch, Function.update_eq_self]
  | binding hs hd hb => exact Registry.binding_bind hb

/-- A message that is served makes the record of its agent name its connection. -/
theorem Serves.step_carrier (h : f.Serves e conn m now s s' registry) (hi : m.instanceId ≠ []) :
    (f.step e).agents.carrier =
      Function.update f.agents.carrier m.instanceId (some (some conn)) := by
  obtain ⟨a, ha⟩ := h.step_agents hi
  exact AgentStore.carrier_report ha

/-! ### What every event preserves -/

/-- Nothing else counts but who is bound, in both tables, and the records. -/
theorem Coherent.congr {g : Fleet} (hf : f.Coherent) (hs : g.HasSound) (hb : g.binding = f.binding)
    (hr : g.registry.binding = f.registry.binding) (ha : g.agents = f.agents) : g.Coherent := by
  refine ⟨hs, ?_, ?_, ?_, ?_, ?_⟩
  · rw [hr, hb, hf.registered]
  · rw [hb]; exact hf.named
  · rw [hb, ha]; exact hf.recorded
  · rw [hb, ha]; exact hf.carried
  · rw [ha]; exact hf.keyed

/-- A connection that opens carries no instance. -/
theorem Coherent.opens (hf : f.Coherent) (hr : f.registry.register conn now = .ok registry) :
    (f.keep conn {} registry).Coherent := by
  obtain ⟨hfree, hregistry⟩ := Registry.binding_register hr
  -- the id was free, so nothing was bound to it that could be lost
  have hnone : f.binding conn = none := by rw [← hf.registered, hfree]
  have hb := f.binding_keep conn {} registry
  have hbound : ∀ {c j : Bytes}, (f.keep conn {} registry).binding c = some (some j) ↔
      f.binding c = some (some j) := by
    intro c j
    rw [hb, Function.update_apply]
    split
    · rename_i hc
      rw [hc, hnone]
      constructor <;> intro h <;> cases h
    · rfl
  refine ⟨hf.sound.insert Session.isSound_new rfl, ?_, fun h => hf.named (hbound.mp h),
    fun h => hf.recorded (hbound.mp h), fun h => hbound.mpr (hf.carried h), hf.keyed⟩
  rw [hb, ← hf.registered]
  exact hregistry

/-- A message that is served keeps the tables together. -/
theorem Coherent.serves (hf : f.Coherent) (h : f.Serves e conn m now s s' registry) :
    (f.step e).Coherent := by
  obtain ⟨hi, hregistry⟩ := h.registered hf
  have hb := h.step_binding
  have hc := h.step_carrier hi
  refine ⟨hf.sound.step e, ?_, fun {c j} hj => ?_, fun {c j} hj => ?_, fun {c j} hj => ?_, ?_⟩
  · rw [hregistry, hb, hf.registered]
  · rw [hb, Function.update_apply] at hj
    split at hj
    · cases hj; exact hi
    · exact hf.named hj
  · rw [hc, Function.update_apply]
    split
    · exact ⟨_, rfl⟩
    · rename_i hne
      rw [hb, Function.update_apply] at hj
      split at hj
      · cases hj; exact absurd rfl hne
      · exact hf.recorded hj
  · rw [hc, Function.update_apply] at hj
    split at hj
    · rename_i hj'
      cases hj
      rw [hb, hj', Function.update_self]
    · rename_i hne
      -- the connection carried another instance before, so it is not the one of the message
      have hcarried := hf.carried hj
      have hother : c ≠ conn := by
        rintro rfl
        rcases h.binding with hn | hm
        · rw [hn] at hcarried; cases hcarried
        · rw [hm] at hcarried; cases hcarried; exact hne rfl
      rw [hb, Function.update_of_ne hother]
      exact hcarried
  · obtain ⟨a, ha⟩ := h.step_agents hi
    exact hf.keyed.report ha

/-- After a close no record names the connection; all others stay as they are. -/
theorem Coherent.carrier_disconnect (hf : f.Coherent) (conn j : Bytes) :
    (f.disconnect conn).agents.carrier j =
      (f.agents.carrier j).map fun c => if c = some conn then none else c := by
  have hkept : f.binding conn ≠ some (some j) →
      f.agents.carrier j = (f.agents.carrier j).map fun c => if c = some conn then none else c := by
    intro hne
    cases hc : f.agents.carrier j with
    | none => rfl
    | some c =>
        have : c ≠ some conn := by
          rintro rfl
          exact hne (hf.carried hc)
        rw [Option.map_some, if_neg this]
  -- a close looks at the instance alone, which a sound session has just if it is identified
  have hbound : (f.sessions.get? conn).bind (·.instanceId) = some j ↔
      f.binding conn = some (some j) := by
    rw [binding]
    cases hs : f.sessions.get? conn with
    | none => simp
    | some s => simp [(hf.sound _ s hs).identifiedAs_eq]
  rw [disconnect_agents]
  split
  · rename_i i hi
    rw [AgentStore.carrier_disconnect, Function.update_apply]
    split
    · rename_i hj
      rw [hj]
    · rename_i hj
      refine hkept fun hbj => hj ?_
      exact Option.some.inj ((hbound.mpr hbj).symm.trans hi)
  · rename_i hn
    refine hkept fun hbj => ?_
    rw [hbound.mpr hbj] at hn
    cases hn

/-- A close keeps the tables together. -/
theorem Coherent.disconnect (hf : f.Coherent) (conn : Bytes) : (f.disconnect conn).Coherent := by
  have hb := f.binding_disconnect conn
  have hopen : ∀ {c : Bytes} {i : Bytes}, (f.disconnect conn).binding c = some (some i) →
      f.binding c = some (some i) := by
    intro c i hc
    rw [hb, Function.update_apply] at hc
    split at hc
    · cases hc
    · exact hc
  refine ⟨hf.sound.step (.close conn), ?_, fun h => hf.named (hopen h), fun {c j} h => ?_,
    fun {c j} h => ?_, ?_⟩
  · rw [hb, disconnect_registry, Registry.binding_unregister, hf.registered]
  · obtain ⟨c', hc'⟩ := hf.recorded (hopen h)
    rw [hf.carrier_disconnect, hc']
    exact ⟨_, rfl⟩
  · rw [hf.carrier_disconnect] at h
    obtain ⟨c', hc', he⟩ := Option.map_eq_some_iff.mp h
    split at he
    · cases he
    · rename_i hne
      subst he
      have hother : c ≠ conn := fun hcc => hne (congrArg some hcc)
      rw [hb, Function.update_of_ne hother]
      exact hf.carried hc'
  · rw [disconnect_agents]
    split
    · exact hf.keyed.disconnect _ _
    · exact hf.keyed

/-- Nothing refers to a connection that is closed. -/
theorem Coherent.gone (hf : f.Coherent) (conn : Bytes) :
    (f.disconnect conn).sessions.get? conn = none ∧
      (f.disconnect conn).registry.entries.get? conn = none ∧
      ∀ i a, (f.disconnect conn).agents.find i = .ok a → a.connection ≠ some conn := by
  have hg := hf.disconnect conn
  have hb : (f.disconnect conn).binding conn = none := by
    rw [binding_disconnect, Function.update_self]
  refine ⟨Option.map_eq_none_iff.mp hb,
    Option.map_eq_none_iff.mp ((congrFun hg.registered conn).trans hb), fun i a ha hc => ?_⟩
  have hcarried := hg.carried ((AgentStore.carrier_of_find ha).trans (by rw [hc]))
  rw [hb] at hcarried
  cases hcarried

/-- Every event keeps the tables together. -/
theorem Coherent.step (hf : f.Coherent) (e : Event) : (f.step e).Coherent := by
  have hsound := hf.sound.step e
  cases f.outcome e with
  | idle _ _ hstep => rwa [hstep]
  | @heard conn now _ _ hstep =>
      rw [hstep] at hsound ⊢
      exact hf.congr hsound rfl (f.registry.binding_touch conn now) rfl
  | @undescribed conn m now s _ hs _ _ hstep =>
      rw [hstep] at hsound ⊢
      exact hf.congr hsound (binding_learn hs) (f.registry.binding_touch conn now) rfl
  | served h => exact hf.serves h
  | opened _ hr hstep =>
      rw [hstep]
      exact hf.opens hr
  | closed _ hstep =>
      rw [hstep]
      exact hf.disconnect _
  | saved _ hstep | regrouped _ _ _ hstep =>
      rw [hstep] at hsound ⊢
      exact hf.congr hsound rfl rfl rfl

/-- Every run keeps the tables together. -/
theorem Coherent.run (hf : f.Coherent) (es : List Event) : (f.run es).Coherent := by
  induction es generalizing f with
  | nil => exact hf
  | cons e es ih => exact ih (hf.step e)

/-- After every run from the setup the tables tell the same. -/
theorem Coherent.of_run (h : f₀.IsSetUp) (es : List Event) : (f₀.run es).Coherent :=
  (of_isSetUp h).run es

/-! ### How long a connection carries an instance -/

/-- A connection carries its instance until it is closed. -/
theorem Coherent.binding_step (hf : f.Coherent) (h : f.binding conn = some (some i))
    (hc : e ≠ .close conn) : (f.step e).binding conn = some (some i) := by
  cases f.outcome e with
  | idle _ _ hstep | heard _ _ hstep | saved _ hstep | regrouped _ _ _ hstep =>
      rw [hstep]
      exact h
  | undescribed _ hs _ _ hstep =>
      rw [hstep, binding_learn hs]
      exact h
  | @served other m _ _ _ _ hserves =>
      rw [hserves.step_binding, Function.update_apply]
      split
      · rename_i hother
        rcases hserves.binding with hn | hm
        · rw [← hother, h] at hn; cases hn
        · rw [← hother, h] at hm; exact hm.symm
      · exact h
  | @opened other _ _ _ hr hstep =>
      have hother : conn ≠ other := by
        rintro rfl
        have hfree := (Registry.binding_register hr).1
        rw [hf.registered, h] at hfree
        cases hfree
      rw [hstep, binding_keep, Function.update_of_ne hother]
      exact h
  | @closed other he hstep =>
      have hother : conn ≠ other := fun e' => hc (e' ▸ he)
      rw [hstep, binding_disconnect, Function.update_of_ne hother]
      exact h

/-- A connection carries its instance until a run closes it. -/
theorem Coherent.binding_run {es : List Event} (hf : f.Coherent)
    (h : f.binding conn = some (some i)) (hc : Event.close conn ∉ es) :
    (f.run es).binding conn = some (some i) := by
  induction es generalizing f with
  | nil => exact h
  | cons e es ih =>
      have he : e ≠ .close conn := (List.ne_of_not_mem_cons hc).symm
      exact ih (hf.step e) (hf.binding_step h he) (List.not_mem_of_not_mem_cons hc)

/-! ### What the stores tell -/

/-- The state that is shown of a connection is that of its session. -/
theorem sessionState_eq_ok_iff {state : SessionState} :
    f.sessionState conn = .ok state ↔ ∃ s, f.sessions.get? conn = some s ∧ s.state = state := by
  rw [sessionState]
  cases f.sessions.get? conn <;> simp

/-- A connection carries an instance if its session is identified as that. -/
theorem binding_eq_some_iff : f.binding conn = some (some i) ↔
    ∃ s, f.sessions.get? conn = some s ∧ s.state = .identified ∧ s.instanceId = some i := by
  rw [binding, Option.map_eq_some_iff]
  simp only [Session.identifiedAs_eq_some_iff]

/-- The registry has a connection bound to the instance of its session. -/
theorem Coherent.instanceId_of_entry (hf : f.Coherent) {entry : Registry.Entry}
    (he : f.registry.entries.get? conn = some entry) :
    ∃ s, f.sessions.get? conn = some s ∧ s.instanceId = entry.instanceId := by
  have hb : f.binding conn = some entry.instanceId := by
    rw [← hf.registered, Registry.binding, he, Option.map_some]
  obtain ⟨s, hs, hi⟩ := Option.map_eq_some_iff.mp hb
  exact ⟨s, hs, (hf.sound _ s hs).identifiedAs_eq.symm.trans hi⟩

/-- After every run the registry holds the connections that have a session, each connected or
identified.  A session is identified just if the registry has an instance for the connection, and
then as that one, which has an id and an agent record and stays until the connection is closed.  A
record names no connection but one whose session is identified as its instance, and nothing refers
to a connection that is closed. -/
theorem stores_tell_the_same (hf : f₀.IsSetUp) (es : List Event) :
    let f := f₀.run es
    (∀ conn, f.registry.entries.contains conn = f.sessions.contains conn) ∧
      (∀ conn, f.sessions.contains conn = true →
        f.sessionState conn = .ok .connected ∨ f.sessionState conn = .ok .identified) ∧
      (∀ conn entry, f.registry.entries.get? conn = some entry →
        (f.sessionState conn = .ok .identified ↔ ∃ i, entry.instanceId = some i) ∧
          ∃ s, f.sessions.get? conn = some s ∧ s.instanceId = entry.instanceId) ∧
      (∀ conn s, f.sessions.get? conn = some s → s.state = .identified →
        ∃ i, s.instanceId = some i ∧ i ≠ [] ∧ (∃ a, f.agents.find i = .ok a ∧ a.instanceId = i) ∧
          ∀ es', Event.close conn ∉ es' →
            (∃ s', (f.run es').sessions.get? conn = some s' ∧ s'.state = .identified ∧
              s'.instanceId = some i) ∧
              ∃ entry, (f.run es').registry.entries.get? conn = some entry ∧
                entry.instanceId = some i) ∧
      (∀ i a conn, f.agents.find i = .ok a → a.connection = some conn →
        ∃ s, f.sessions.get? conn = some s ∧ s.state = .identified ∧ s.instanceId = some i) ∧
      ∀ conn, let g := f.step (.close conn)
        g.sessions.get? conn = none ∧ g.registry.entries.get? conn = none ∧
          ∀ i a, g.agents.find i = .ok a → a.connection ≠ some conn := by
  intro f
  have h : f.Coherent := Coherent.of_run hf es
  refine ⟨fun conn => ?_, fun conn hc => ?_, fun conn entry he => ?_, fun conn s hs hstate => ?_,
    fun i a conn ha hc => ?_, h.gone⟩
  · have hb := congrArg Option.isSome (congrFun h.registered conn)
    rwa [Registry.binding, binding, Option.isSome_map, Option.isSome_map] at hb
  · obtain ⟨s, hs⟩ := Table.contains_iff.mp hc
    cases hstate : s.state with
    | connected => exact .inl (sessionState_eq_ok_iff.mpr ⟨s, hs, hstate⟩)
    | identified => exact .inr (sessionState_eq_ok_iff.mpr ⟨s, hs, hstate⟩)
    | closed => exact absurd hstate (h.sound conn s hs).isOpen
  · obtain ⟨s, hs, hi⟩ := h.instanceId_of_entry he
    refine ⟨?_, s, hs, hi⟩
    rw [sessionState_eq_ok_iff, ← Option.isSome_iff_exists, ← hi, ← (h.sound _ s hs).identified_iff,
      hs]
    simp
  · obtain ⟨i, hi⟩ := Option.isSome_iff_exists.mp ((h.sound _ s hs).identified_iff.mp hstate)
    have hb : f.binding conn = some (some i) := binding_eq_some_iff.mpr ⟨s, hs, hstate, hi⟩
    obtain ⟨c, hc⟩ := h.recorded hb
    obtain ⟨a, ha, -⟩ := AgentStore.find_of_carrier hc
    refine ⟨i, hi, h.named hb, ⟨a, ha, h.keyed.instanceId_of_find ha⟩, fun es' hes' => ?_⟩
    have hlater : (f.run es').binding conn = some (some i) := h.binding_run hb hes'
    refine ⟨binding_eq_some_iff.mp hlater, Option.map_eq_some_iff.mp ?_⟩
    exact (congrFun (h.run es').registered conn).trans hlater
  · exact binding_eq_some_iff.mp (h.carried ((AgentStore.carrier_of_find ha).trans (by rw [hc])))

/-- Instance 7 is carried by a connection that stays open while a second one opens and closes. -/
theorem stores_tell_of_sample :
    let es := [.connect [9] 6, sampleMessage [9] []]
    let later := [.connect [8] 7, .close [8]]
    (sample.run es).sessionState [9] = .ok .identified ∧
      (∃ a, (sample.run es).agents.find [7] = .ok a ∧ a.instanceId = [7]) ∧
      (∃ s, ((sample.run es).run later).sessions.get? [9] = some s ∧ s.state = .identified ∧
        s.instanceId = some [7]) ∧
      (∃ entry, ((sample.run es).run later).registry.entries.get? [9] = some entry ∧
        entry.instanceId = some [7]) ∧
      ∀ i a, ((sample.run es).step (.close [9])).agents.find i = .ok a →
        a.connection ≠ some [9] := by
  intro es later
  obtain ⟨-, -, -, hidentified, -, hclosed⟩ :=
    stores_tell_the_same sample_isFresh.isSetUp es
  have hs : (sample.run es).sessions.get? [9] =
      some { state := .identified, instanceId := some [7] } := by decide +kernel
  obtain ⟨i, hi, -, ha, hkept⟩ := hidentified [9] _ hs rfl
  obtain rfl : [7] = i := Option.some.inj hi
  have hlater := hkept later (by simp [later])
  exact ⟨by decide +kernel, ha, hlater.1, hlater.2, (hclosed [9]).2.2⟩

end Fleet

end FleetControl
