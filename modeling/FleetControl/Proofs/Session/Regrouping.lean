import FleetControl.Proofs.Group.Alike
import FleetControl.Proofs.Session.Run

/-!
# Regrouping — control planes whose groups are alike

Of the groups an answer takes the one that is resolved, and of that its name and its configuration.
So a control plane with groups in the place of alike ones answers every event the same and does the
same, and its groups stay alike (`react_withGroups`, for one event, and `run_withGroups`): it cannot
be told from the other by anything that agents are ever sent.

Events change the groups by requests alone (`step_groups`), so those of a run stay sound
(`isSound_of_run`).
-/

namespace FleetControl

variable {f f₀ : Fleet} {groups : GroupStore} {conn i : Bytes} {m : AgentMessage} {now : Instant}
  {s : Session} {reply : Reply} {g g' : Option Group} {e : Event} {r : GroupStore.Request}

namespace Fleet

/-- The control plane with other groups. -/
def withGroups (f : Fleet) (groups : GroupStore) : Fleet := { f with groups }

/-! ### One message -/

/-- Of a group only what is left of it bare decides what is pushed. -/
theorem configToPush_of_bare (h : g.map Group.bare = g'.map Group.bare) (hash : Option Bytes) :
    configToPush g hash = configToPush g' hash := by
  cases g with
  | none =>
      cases g' with
      | none => rfl
      | some g' => cases h
  | some g =>
      cases g' with
      | none => cases h
      | some g' =>
          simp only [configToPush, Option.bind_eq_bind, Option.bind_some,
            Group.remoteConfig_of_bare (Option.some.inj h)]

/-- Of a group a report takes the name. -/
theorem recordReport_withGroups (h : g'.map Group.name = g.map Group.name) :
    (f.withGroups groups).recordReport conn m g' now =
      (f.recordReport conn m g now).withGroups groups := by
  have hagents : (f.withGroups groups).agents = f.agents := rfl
  have hname : (g'.map fun g => g.name) = g.map fun g => g.name := h
  simp only [recordReport, hname, hagents]
  split <;> rfl

/-- Acknowledging does not look at the groups. -/
theorem acknowledge_withGroups (ids : List Bytes) :
    (f.withGroups groups).acknowledge i ids = (f.acknowledge i ids).withGroups groups := by
  have hkeys : (f.withGroups groups).acknowledgedKeys i ids = f.acknowledgedKeys i ids := rfl
  rw [acknowledge, acknowledge, hkeys]
  split <;> rfl

/-- Delivering does not look at the groups. -/
theorem deliver_withGroups :
    (f.withGroups groups).deliver i reply =
      ((f.deliver i reply).1, (f.deliver i reply).2.withGroups groups) := by
  have hledger : (f.withGroups groups).ledger i = f.ledger i := rfl
  have hstore : (f.withGroups groups).store = f.store := rfl
  have hperReply : (f.withGroups groups).perReply = f.perReply := rfl
  simp only [deliver, hledger, hstore, hperReply]
  split
  · rfl
  · split <;> split <;> rfl

/-- With alike groups a message is served the same. -/
theorem serveInstance_withGroups (h : f.groups.Alike groups) :
    (f.withGroups groups).serveInstance conn i s m now reply =
      ((f.serveInstance conn i s m now reply).1,
        (f.serveInstance conn i s m now reply).2.withGroups groups) := by
  have hresolved : (Group.resolve s.identifying groups.snapshot).map Group.bare =
      (Group.resolve s.identifying f.groups.snapshot).map Group.bare := (h.resolve _).symm
  have hgroups : (f.withGroups groups).groups = groups := rfl
  rw [serveInstance, serveInstance, hgroups,
    recordReport_withGroups (Group.map_name_of_bare hresolved), acknowledge_withGroups,
    configToPush_of_bare hresolved, deliver_withGroups]

/-- Whose session it is does not depend on the groups. -/
theorem Carries.withGroups {s' : Session} {registry : Registry} (h : f.Carries conn s m s' registry)
    (groups : GroupStore) : (f.withGroups groups).Carries conn s m s' registry := by
  cases h with
  | before hs hi => exact .before hs hi
  | binding hs hd hb => exact .binding hs hd hb

/-- With alike groups a message is processed the same. -/
theorem process_withGroups (h : f.groups.Alike groups) (hopen : s.state ≠ .closed) :
    (f.withGroups groups).process conn s m now reply =
      ((f.process conn s m now reply).1,
        (f.process conn s m now reply).2.withGroups groups) := by
  obtain hr | ⟨hi, hd⟩ | ⟨s', registry, hc⟩ := f.identify_cases conn m hopen
  · have hr' : (f.withGroups groups).identify conn s m = none := by
      rw [identify_eq_none_iff] at hr ⊢
      exact hr
    rw [process_of_refused hr, process_of_refused hr']
  · rw [process_of_undescribed hi hd, process_of_undescribed hi hd]
    rfl
  · -- what is kept of the session is the same in both, so they are still alike when it is served
    have hkept : (f.keep conn (Session.learn s' m) registry).groups.Alike groups := h
    have hkeep : (f.withGroups groups).keep conn (Session.learn s' m) registry =
        (f.keep conn (Session.learn s' m) registry).withGroups groups := rfl
    rw [process_of_carries hc, process_of_carries (hc.withGroups groups), hkeep,
      serveInstance_withGroups hkept]

/-- With alike groups a message is answered the same. -/
theorem receive_withGroups (h : f.groups.Alike groups) :
    (f.withGroups groups).receive conn m now =
      ((f.receive conn m now).1, (f.receive conn m now).2.withGroups groups) := by
  have hheard : (f.heard conn now).groups.Alike groups := h
  have hswap : (f.withGroups groups).heard conn now = (f.heard conn now).withGroups groups := rfl
  by_cases h : f.IsOpen conn
  · obtain ⟨s, hs, hopen⟩ := h
    have hs' : (f.withGroups groups).sessions.get? conn = some s := hs
    by_cases hq : Sequence.of s.lastSequence m.sequenceNum = .duplicate
    · rw [receive_of_duplicate hs hopen hq, receive_of_duplicate hs' hopen hq]
      rfl
    · rw [receive_of_fresh hs hopen hq, receive_of_fresh hs' hopen hq, hswap,
        process_withGroups hheard hopen]
  · have h' : ¬ (f.withGroups groups).IsOpen conn := h
    rw [receive_of_unknown h, receive_of_unknown h']

/-! ### Events -/

end Fleet

/-- What an event asks of the groups. -/
def Event.request? : Event → Option GroupStore.Request
  | .createGroup g => some (.create g)
  | .updateGroup g time user => some (.update g time user)
  | .deleteGroup name time user => some (.delete name time user)
  | _ => none

namespace Fleet

/-- A request to the groups changes nothing else. -/
theorem react_of_request (h : e.request? = some r) :
    f.react e = (none, f.withGroups (f.groups.after r)) := by
  cases e with
  | createGroup g =>
      cases h
      simp only [react, GroupStore.after, GroupStore.answer]
      cases f.groups.create g <;> rfl
  | updateGroup g time user =>
      cases h
      simp only [react, GroupStore.after, GroupStore.answer]
      cases f.groups.update g time user <;> rfl
  | deleteGroup name time user =>
      cases h
      simp only [react, GroupStore.after, GroupStore.answer]
      cases f.groups.delete name time user <;> rfl
  | connect | message | frame | close | save => cases h

/-- Opening a connection does not look at the groups. -/
theorem connect_withGroups :
    (f.withGroups groups).connect conn now = (f.connect conn now).map (·.withGroups groups) := by
  have hregistry : (f.withGroups groups).registry = f.registry := rfl
  rw [connect, connect, hregistry]
  cases f.registry.register conn now <;> rfl

/-- Closing a connection does not look at the groups. -/
theorem disconnect_withGroups :
    (f.withGroups groups).disconnect conn = (f.disconnect conn).withGroups groups := by
  have hsessions : (f.withGroups groups).sessions = f.sessions := rfl
  simp only [disconnect, hsessions]
  cases f.sessions.get? conn with
  | none => rfl
  | some s =>
      dsimp only
      cases s.instanceId <;> rfl

/-- What asks nothing of the groups leaves them. -/
theorem react_withGroups_of_none (h : f.groups.Alike groups) (he : e.request? = none) :
    (f.withGroups groups).react e = ((f.react e).1, (f.react e).2.withGroups groups) := by
  cases e with
  | connect conn now =>
      rw [react, react, connect_withGroups]
      cases f.connect conn now <;> rfl
  | message conn m now =>
      rw [react, react, receive_withGroups h]
  | frame conn line now =>
      cases hd : AgentMessage.decode line with
      | error cause =>
          have hpass : (f.withGroups groups).passOver conn now =
              (f.passOver conn now).withGroups groups := by
            have hsessions : (f.withGroups groups).sessions = f.sessions := rfl
            rw [passOver, passOver, hsessions]
            split <;> rfl
          rw [react_of_malformed hd, react_of_malformed hd, hpass]
      | ok m =>
          have hsaid : (Event.frame conn line now).said? = some (conn, m, now) := by
            rw [Event.said?, hd]
            rfl
          rw [react_of_said hsaid, react_of_said hsaid, receive_withGroups h]
  | close conn => rw [react, react, disconnect_withGroups]
  | save => rfl
  | createGroup | updateGroup | deleteGroup => cases he

/-- Events change the groups by what they ask of them alone. -/
theorem step_groups (f : Fleet) (e : Event) :
    (f.step e).groups = e.request?.elim f.groups f.groups.after := by
  cases he : e.request? with
  | some r =>
      rw [step, react_of_request he]
      rfl
  | none =>
      -- what leaves any alike groups as they are leaves these
      have hsame := react_withGroups_of_none (GroupStore.alike_refl f.groups) he
      have hself : f.withGroups f.groups = f := rfl
      rw [hself] at hsame
      exact congrArg (fun out => out.2.groups) hsame

/-- An event is answered by either of two control planes the same, and they stay alike. -/
theorem react_withGroups (h : f.groups.Alike groups) (e : Event) :
    ∃ groups', (f.step e).groups.Alike groups' ∧
      (f.withGroups groups).react e = (f.reply? e, (f.step e).withGroups groups') := by
  cases he : e.request? with
  | none =>
      refine ⟨groups, ?_, react_withGroups_of_none h he⟩
      rw [step_groups, he]
      exact h
  | some r =>
      refine ⟨groups.after r, ?_, ?_⟩
      · rw [step_groups, he]
        exact h.after r
      · rw [react_of_request he, reply?, step, react_of_request he]
        rfl

/-- Two control planes with alike groups stay so along every run. -/
theorem run_withGroups (h : f.groups.Alike groups) (es : List Event) :
    ∃ groups', (f.run es).groups.Alike groups' ∧
      (f.withGroups groups).run es = (f.run es).withGroups groups' := by
  induction es generalizing f groups with
  | nil => exact ⟨groups, h, rfl⟩
  | cons e es ih =>
      obtain ⟨groups', h', hreact⟩ := react_withGroups h e
      have hstep : (f.withGroups groups).step e = (f.step e).withGroups groups' :=
        congrArg Prod.snd hreact
      rw [run_cons, run_cons, hstep]
      exact ih h'

/-- After any later events the two are alike, and answer the same. -/
theorem reply?_withGroups (h : f.groups.Alike groups) (es : List Event) (e : Event) :
    ((f.withGroups groups).run es).reply? e = (f.run es).reply? e := by
  obtain ⟨groups', h', hrun⟩ := run_withGroups h es
  obtain ⟨later, -, hreact⟩ := react_withGroups h' e
  rw [hrun, reply?, hreact]

/-! ### The groups of a run -/

/-- Sound groups stay sound along every run. -/
theorem isSound_run {es : List Event} (h : f.groups.IsSound) : (f.run es).groups.IsSound := by
  induction es generalizing f with
  | nil => exact h
  | cons e es ih =>
      refine ih ?_
      rw [step_groups]
      cases e.request? with
      | none => exact h
      | some r => exact h.after r

/-- After every run from the setup the groups are sound. -/
theorem isSound_of_run (h : f₀.IsSetUp) (es : List Event) : (f₀.run es).groups.IsSound := by
  refine isSound_run ?_
  obtain ⟨cursor, plan, store, hf⟩ := h
  obtain ⟨-, -, -, hg, -⟩ := setup_parts hf
  rw [hg]
  exact GroupStore.isSound_empty cursor

end Fleet

end FleetControl
