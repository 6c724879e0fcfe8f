import FleetControl.Proofs.Agent.Store
import FleetControl.Proofs.Connection.Registry
import FleetControl.Proofs.Group.Store
import FleetControl.Proofs.Session.Run

/-!
# Outcomes — what one event comes to

A message is accepted if it is neither a duplicate nor rejected, and it is processed for an instance
if its session is identified as the instance's afterwards (`accepted`, `processedFor`); such a message
is served (`Serves`).  `Serves.step_sessions`, `Serves.step_registry` and `Serves.step_agents` say
what that does to the sessions, the registry and the agent records.

`outcome` is the inversion of one event: it opens a session, closes one, has one learn from a message
that leaves its agent undescribed, is served, saves a command, changes the groups, or does nothing
but that a connection was heard from.
-/

namespace FleetControl

/-- The instance that a session is identified as, once it is. -/
def Session.identifiedAs (s : Session) : Option Bytes :=
  match s.state with
  | .identified => s.instanceId
  | .connected | .closed => none

/-- A session that is only connected is identified as nothing. -/
theorem Session.identifiedAs_of_connected {s : Session} (h : s.state = .connected) :
    s.identifiedAs = none := by
  rw [identifiedAs, h]

/-- A session is identified as an instance if that is its state and its instance. -/
theorem Session.identifiedAs_eq_some_iff {s : Session} {i : Bytes} :
    s.identifiedAs = some i ↔ s.state = .identified ∧ s.instanceId = some i := by
  rw [identifiedAs]
  cases s.state <;> simp

namespace Fleet

variable {f : Fleet} {e : Event} {conn : Bytes} {m : AgentMessage} {now : Instant}
  {s s' : Session} {registry : Registry}

/-- Whoever carries an instance is identified as the one that the message names. -/
theorem Carries.identifiedAs (h : f.Carries conn s m s' registry) :
    s'.identifiedAs = some m.instanceId :=
  Session.identifiedAs_eq_some_iff.mpr ⟨h.state, h.instanceId⟩

/-! ### Messages that are accepted -/

/-- The message that an event brings to a session and that is accepted, with its connection: it is
neither a duplicate nor rejected. -/
def accepted (f : Fleet) (e : Event) : Option (Bytes × AgentMessage) :=
  match e.said? with
  | none => none
  | some (conn, m, _) =>
    match f.sessions.get? conn with
    | none => none
    | some s =>
      if Sequence.of s.lastSequence m.sequenceNum = .duplicate then none
      else if (f.reply? e).any (·.error.isSome) then none
      else some (conn, m)

/-- The instance that an event's message is processed for, if the event brings one: it is neither a
duplicate nor rejected, and its session is identified as the instance's afterwards. -/
def processedFor (f : Fleet) (e : Event) : Option Bytes :=
  match e.said? with
  | none => none
  | some (conn, m, _) =>
    match f.sessions.get? conn with
    | none => none
    | some s =>
      if Sequence.of s.lastSequence m.sequenceNum = .duplicate then none
      else if (f.reply? e).any (·.error.isSome) then none
      else ((f.step e).sessions.get? conn).bind (·.identifiedAs)

/-- A message is processed for the instance that its session is identified as once it is
accepted. -/
theorem processedFor_eq (f : Fleet) (e : Event) :
    f.processedFor e =
      (f.accepted e).bind fun a => ((f.step e).sessions.get? a.1).bind (·.identifiedAs) := by
  rw [processedFor, accepted]
  split
  · rfl
  split
  · rfl
  split
  · rfl
  split <;> rfl

/-- Without a message nothing is accepted. -/
theorem accepted_of_not_said (h : e.said? = none) : f.accepted e = none := by
  simp only [accepted, h]

/-- A message that is answered with an error is not accepted. -/
theorem accepted_of_rejected {r : Reply} (h : f.reply? e = some r) (he : r.error.isSome = true) :
    f.accepted e = none := by
  rw [accepted, h, Option.any_some, he]
  split
  · rfl
  split
  · rfl
  split <;> rfl

/-- The instance that the session of a connection is identified as, once that is known, if there is
a session. -/
def binding (f : Fleet) (conn : Bytes) : Option (Option Bytes) :=
  (f.sessions.get? conn).map (·.identifiedAs)

theorem binding_eq_of_session {i : Option Bytes} (h : f.sessions.get? conn = some s)
    (hi : s.identifiedAs = i) : f.binding conn = some i := by
  rw [binding, h, Option.map_some, hi]

/-- Keeping a session binds its connection to what the session is identified as. -/
theorem binding_keep (f : Fleet) (conn : Bytes) (s : Session) (registry : Registry) :
    (f.keep conn s registry).binding = Function.update f.binding conn (some s.identifiedAs) := by
  funext other
  simp only [binding, keep, Table.get?_insert, Function.update_apply]
  split <;> rfl

/-- Learning binds a session to nothing. -/
theorem binding_learn (h : f.sessions.get? conn = some s) :
    (f.keep conn (Session.learn s m) registry).binding = f.binding := by
  have hconn : f.binding conn = some (Session.learn s m).identifiedAs :=
    binding_eq_of_session h rfl
  rw [binding_keep, ← hconn, Function.update_eq_self]

/-- A message that leaves its agent undescribed is processed for no instance. -/
theorem processedFor_of_undescribed (ha : f.accepted e = some (conn, m)) (hi : s.state = .connected)
    (hstep : f.step e = f.keep conn (Session.learn s m) registry) : f.processedFor e = none := by
  have hlearned : (Session.learn s m).identifiedAs = none := Session.identifiedAs_of_connected hi
  rw [processedFor_eq, ha, Option.bind_some, hstep, keep, Table.get?_insert, if_pos rfl,
    Option.bind_some, hlearned]

/-! ### Messages that are served -/

/-- What is known of an event whose message is processed for an instance. -/
structure Serves (f : Fleet) (e : Event) (conn : Bytes) (m : AgentMessage) (now : Instant)
    (s s' : Session) (registry : Registry) : Prop where
  said : e.said? = some (conn, m, now)
  session : f.sessions.get? conn = some s
  fresh : Sequence.of s.lastSequence m.sequenceNum ≠ .duplicate
  carries : (f.heard conn now).Carries conn s m s' registry
  received : f.receive conn m now =
    (f.keep conn (Session.learn s' m) registry).serveInstance conn m.instanceId
      (Session.learn s' m) m now (opening s m)

/-- A message that is served is processed for the instance that it names. -/
theorem Serves.processedFor (h : f.Serves e conn m now s s' registry) :
    f.processedFor e = some m.instanceId := by
  have hl : (Session.learn s' m).identifiedAs = some m.instanceId := h.carries.identifiedAs
  simp only [Fleet.processedFor, h.said, h.session, if_neg h.fresh, reply?_of_said h.said,
    step_of_said h.said, h.received]
  simp [keep, Table.get?_insert, hl]

/-- A message that is served is accepted. -/
theorem Serves.accepted (h : f.Serves e conn m now s s' registry) :
    f.accepted e = some (conn, m) := by
  simp only [Fleet.accepted, h.said, h.session, if_neg h.fresh, reply?_of_said h.said, h.received]
  simp

/-- What a message reports about its agent. -/
def reportOf (conn : Bytes) (m : AgentMessage) (group : Option Group) (now : Instant) :
    AgentReport where
  instanceId := m.instanceId
  connection := conn
  description := m.description
  configHash := m.configHash
  group := group.map (·.name)
  time := now

/-- A report that is taken is all that changes. -/
theorem recordReport_of_report {group : Option Group} {a : Agent} {agents : AgentStore}
    (h : f.agents.report (reportOf conn m group now) = .ok (a, agents)) :
    f.recordReport conn m group now = { f with agents } := by
  rw [reportOf] at h
  simp only [recordReport, h]

/-- The group that the agent of a session belongs to. -/
def groupOf (f : Fleet) (s : Session) : Option Group :=
  Group.resolve s.identifying f.groups.snapshot

/-- Apart from the ledgers, a message that is served leaves the session that learned from it and the
report of its agent. -/
theorem Serves.step_eq (h : f.Serves e conn m now s s' registry) :
    ∃ ledgers, f.step e =
      { (f.keep conn (Session.learn s' m) registry).recordReport conn m
          (f.groupOf (Session.learn s' m)) now with ledgers } := by
  obtain ⟨ledgers, hl⟩ := (f.keep conn (Session.learn s' m) registry).serveInstance_frame conn
    m.instanceId m now (Session.learn s' m) (opening s m)
  exact ⟨ledgers, by rw [step_of_said h.said, h.received, hl]; rfl⟩

/-- A message that is served leaves the session that learned from it. -/
theorem Serves.step_sessions (h : f.Serves e conn m now s s' registry) :
    (f.step e).sessions = f.sessions.insert conn (Session.learn s' m) := by
  obtain ⟨ledgers, hl⟩ := h.step_eq
  rw [hl, recordReport_sessions]
  rfl

/-- A message that is served leaves its connection identified as its instance. -/
theorem Serves.step_binding (h : f.Serves e conn m now s s' registry) :
    (f.step e).binding = Function.update f.binding conn (some (some m.instanceId)) := by
  have hkeep : (f.step e).binding = (f.keep conn (Session.learn s' m) registry).binding := by
    funext other
    rw [binding, h.step_sessions]
    rfl
  have hi : (Session.learn s' m).identifiedAs = some m.instanceId := h.carries.identifiedAs
  rw [hkeep, binding_keep, hi]

/-- A message that is served leaves the registry in which its connection is bound. -/
theorem Serves.step_registry (h : f.Serves e conn m now s s' registry) :
    (f.step e).registry = registry := by
  obtain ⟨ledgers, hl⟩ := h.step_eq
  obtain ⟨agents, ha⟩ := (f.keep conn (Session.learn s' m) registry).recordReport_frame conn m
    (f.groupOf (Session.learn s' m)) now
  rw [hl, ha]
  rfl

/-- A message that is served leaves the groups. -/
theorem Serves.step_groups (h : f.Serves e conn m now s s' registry) :
    (f.step e).groups = f.groups := by
  obtain ⟨ledgers, hl⟩ := h.step_eq
  obtain ⟨agents, ha⟩ := (f.keep conn (Session.learn s' m) registry).recordReport_frame conn m
    (f.groupOf (Session.learn s' m)) now
  rw [hl, ha]
  rfl

/-- A message that is served is recorded. -/
theorem Serves.step_agents (h : f.Serves e conn m now s s' registry) (hi : m.instanceId ≠ []) :
    ∃ a, f.agents.report (reportOf conn m (f.groupOf (Session.learn s' m)) now) =
      .ok (a, (f.step e).agents) := by
  obtain ⟨ledgers, hl⟩ := h.step_eq
  obtain ⟨a, agents, hr⟩ : ∃ a agents,
      f.agents.report (reportOf conn m (f.groupOf (Session.learn s' m)) now) = .ok (a, agents) :=
    ⟨_, _, AgentStore.report_eq hi⟩
  refine ⟨a, hr.trans ?_⟩
  rw [hl, recordReport_of_report (f := f.keep conn (Session.learn s' m) registry) hr]

/-! ### Connections that are closed -/

/-- A close changes the registry, the sessions and the agent records and nothing else. -/
theorem disconnect_frame (f : Fleet) (conn : Bytes) :
    ∃ registry sessions agents, f.disconnect conn = { f with registry, sessions, agents } := by
  simp only [disconnect]
  split
  · exact ⟨_, f.sessions, f.agents, rfl⟩
  · split
    · exact ⟨_, _, f.agents, rfl⟩
    · exact ⟨_, _, _, rfl⟩

theorem disconnect_registry (f : Fleet) (conn : Bytes) :
    (f.disconnect conn).registry = f.registry.unregister conn := by
  simp only [disconnect]
  split
  · rfl
  · split <;> rfl

/-- A close drops the session of its connection and no other. -/
theorem get?_disconnect_sessions (f : Fleet) (conn other : Bytes) :
    (f.disconnect conn).sessions.get? other =
      if other = conn then none else f.sessions.get? other := by
  simp only [disconnect]
  split
  · rename_i hs
    split
    · rename_i ho
      rw [ho, hs]
    · rfl
  · split <;> exact Table.get?_erase _ _ _

/-- A connection that is closed is identified as nothing. -/
theorem binding_disconnect (f : Fleet) (conn : Bytes) :
    (f.disconnect conn).binding = Function.update f.binding conn none := by
  funext other
  rw [binding, get?_disconnect_sessions, Function.update_apply]
  split <;> rfl

/-- A close looks at the instance that its session carries, whatever the state. -/
theorem disconnect_agents (f : Fleet) (conn : Bytes) :
    (f.disconnect conn).agents = match (f.sessions.get? conn).bind (·.instanceId) with
      | some i => f.agents.disconnect i conn
      | none => f.agents := by
  simp only [disconnect]
  cases f.sessions.get? conn with
  | none => rfl
  | some s => cases hi : s.instanceId <;> simp only [Option.bind_some, hi]

/-! ### The inversion -/

/-- What an event comes to. -/
inductive Outcome (f : Fleet) (e : Event) : Prop where
  | idle (ha : f.accepted e = none) (hc : ∀ conn, e ≠ .close conn) (hstep : f.step e = f)
  | heard {conn : Bytes} {now : Instant} (ha : f.accepted e = none) (hc : ∀ conn, e ≠ .close conn)
      (hstep : f.step e = f.heard conn now)
  | undescribed {conn : Bytes} {m : AgentMessage} {now : Instant} {s : Session}
      (ha : f.accepted e = some (conn, m)) (session : f.sessions.get? conn = some s)
      (hi : s.state = .connected) (hd : m.description = none)
      (hstep : f.step e = f.keep conn (Session.learn s m) (f.heard conn now).registry)
  | served {conn : Bytes} {m : AgentMessage} {now : Instant} {s s' : Session}
      {registry : Registry} (h : f.Serves e conn m now s s' registry)
  | opened {conn : Bytes} {now : Instant} {registry : Registry} (he : e = .connect conn now)
      (hr : f.registry.register conn now = .ok registry)
      (hstep : f.step e = f.keep conn {} registry)
  | closed {conn : Bytes} (he : e = .close conn) (hstep : f.step e = f.disconnect conn)
  | saved {r : CommandLog.Request} {now : Instant} (he : e = .save r now)
      (hstep : f.step e = { f with store := (f.store.save now none r).2 })
  | regrouped {groups : GroupStore} (ha : f.accepted e = none) (hc : ∀ conn, e ≠ .close conn)
      (hg : f.groups.Changed groups) (hstep : f.step e = { f with groups })

/-- The inversion for events that bring a message. -/
theorem outcome_of_said (h : e.said? = some (conn, m, now)) : f.Outcome e := by
  have hc : ∀ other, e ≠ .close other := fun other he => by rw [he] at h; cases h
  cases f.receive_received conn m now with
  | unknown _ ho =>
      have ha : f.accepted e = none := accepted_of_rejected (reply?_of_said h) (by rw [ho]; rfl)
      exact .idle ha hc (by rw [step_of_said h, ho])
  | duplicate hs _ hq ho =>
      have ha : f.accepted e = none := by simp only [accepted, h, hs, if_pos hq]
      exact .heard ha hc (by rw [step_of_said h, ho])
  | refused _ _ _ _ ho =>
      have ha : f.accepted e = none := accepted_of_rejected (reply?_of_said h) (by rw [ho]; rfl)
      exact .heard ha hc (by rw [step_of_said h, ho])
  | @undescribed s hs hq hi hd ho =>
      have ha : f.accepted e = some (conn, m) := by
        have he : ((opening s m).requestFullState).error = none := opening_error m s
        simp only [accepted, h, hs, if_neg hq, reply?_of_said h, ho, Option.any_some, he]
        rfl
      exact .undescribed ha hs hi hd (by rw [step_of_said h, ho])
  | served hs hq hcar ho => exact .served ⟨h, hs, hq, hcar, ho⟩

/-- A peer that connects opens a session or is refused. -/
theorem outcome_of_connect (f : Fleet) (conn : Bytes) (now : Instant) :
    f.Outcome (.connect conn now) := by
  cases hr : f.registry.register conn now with
  | error cause =>
      refine .idle rfl (fun _ h => by cases h) ?_
      simp only [step, react, connect, hr]
      rfl
  | ok registry =>
      refine .opened rfl hr ?_
      simp only [step, react, connect, hr]
      rfl

/-- A frame that holds no message is heard if its connection has a session. -/
theorem outcome_of_malformed {line : Bytes} {cause : FrameRefusal}
    (hd : AgentMessage.decode line = .error cause) : f.Outcome (.frame conn line now) := by
  have ha : f.accepted (.frame conn line now) = none := accepted_of_not_said (by
    simp [Event.said?, hd, Except.toOption])
  have hc : ∀ other, Event.frame conn line now ≠ .close other := fun _ h => by cases h
  cases hs : f.sessions.contains conn with
  | true => exact .heard ha hc (by simp only [step, react, receiveFrame, hd, hs, if_true]; rfl)
  | false => exact .idle ha hc (by simp [step, react, receiveFrame, hd, hs])

/-- The one inversion that proofs about events start from. -/
theorem outcome (f : Fleet) (e : Event) : f.Outcome e := by
  cases e with
  | connect conn now => exact f.outcome_of_connect conn now
  | message conn m now => exact outcome_of_said rfl
  | frame conn line now =>
      cases hd : AgentMessage.decode line with
      | ok m => exact outcome_of_said (by simp only [Event.said?, hd]; rfl)
      | error cause => exact outcome_of_malformed hd
  | close conn => exact .closed rfl rfl
  | save r now => exact .saved rfl rfl
  | createGroup g =>
      have hc : ∀ conn, Event.createGroup g ≠ .close conn := fun _ h => by cases h
      cases hg : f.groups.create g with
      | ok made => exact .regrouped rfl hc (.created hg) (by simp only [step, react, hg])
      | error => exact .idle rfl hc (by simp only [step, react, hg])
  | updateGroup g time user =>
      have hc : ∀ conn, Event.updateGroup g time user ≠ .close conn := fun _ h => by cases h
      cases hg : f.groups.update g time user with
      | ok made => exact .regrouped rfl hc (.updated hg) (by simp only [step, react, hg])
      | error => exact .idle rfl hc (by simp only [step, react, hg])
  | deleteGroup name time user =>
      have hc : ∀ conn, Event.deleteGroup name time user ≠ .close conn := fun _ h => by cases h
      cases hg : f.groups.delete name time user with
      | ok groups => exact .regrouped rfl hc (.deleted hg) (by simp only [step, react, hg])
      | error => exact .idle rfl hc (by simp only [step, react, hg])

/-! ### Parts that events leave alone -/

/-- The most commands in one reply never changes. -/
theorem step_perReply (f : Fleet) (e : Event) : (f.step e).perReply = f.perReply := by
  cases f.outcome e with
  | idle _ _ hstep | heard _ _ hstep | undescribed _ _ _ _ hstep | opened _ _ hstep
  | saved _ hstep | regrouped _ _ _ hstep =>
      have h := congrArg Fleet.perReply hstep
      exact h
  | served h =>
      obtain ⟨ledgers, hstep⟩ := h.step_eq
      rw [hstep, recordReport_perReply]
      rfl
  | @closed conn _ hstep =>
      obtain ⟨registry, sessions, agents, hf⟩ := f.disconnect_frame conn
      rw [hstep, hf]

/-- The most commands in one reply is the same after every run. -/
theorem run_perReply (f : Fleet) (es : List Event) : (f.run es).perReply = f.perReply := by
  induction es generalizing f with
  | nil => rfl
  | cons e es ih => rw [run_cons, ih, step_perReply]

/-- A message is served, or it changes neither ledgers nor log and acknowledges nothing. -/
theorem serves_or_idle (f : Fleet) (hm : e.said? = some (conn, m, now)) :
    (∃ s s' registry, f.Serves e conn m now s s' registry) ∨
      (f.processedFor e = none ∧ (f.step e).store = f.store ∧ (f.step e).ledgers = f.ledgers) := by
  cases f.outcome e with
  | idle ha _ hstep | heard ha _ hstep | regrouped ha _ _ hstep =>
      refine .inr ⟨by rw [processedFor_eq, ha, Option.bind_none], ?_⟩
      rw [hstep]
      exact ⟨rfl, rfl⟩
  | undescribed ha hs hi hd hstep =>
      refine .inr ⟨processedFor_of_undescribed ha hi hstep, ?_⟩
      rw [hstep]
      exact ⟨rfl, rfl⟩
  | opened he | closed he | saved he => rw [he] at hm; cases hm
  | @served conn' m' now' s s' registry h =>
      obtain ⟨rfl, rfl, rfl⟩ : conn' = conn ∧ m' = m ∧ now' = now := by
        simpa using h.said.symm.trans hm
      exact .inl ⟨s, s', registry, h⟩

/-- A message that is processed for an instance is served, and names it. -/
theorem serves_of_processedFor {i : Bytes} (hp : f.processedFor e = some i) :
    ∃ conn m now s s' registry, f.Serves e conn m now s s' registry ∧ m.instanceId = i := by
  cases hm : e.said? with
  | none => simp only [processedFor, hm] at hp; cases hp
  | some said =>
      obtain ⟨s, s', registry, h⟩ | ⟨hn, -⟩ := f.serves_or_idle hm
      · exact ⟨_, _, _, s, s', registry, h, Option.some_inj.mp (h.processedFor.symm.trans hp)⟩
      · rw [hn] at hp; cases hp

/-- An event without a message that is no save changes neither ledgers nor log. -/
theorem idle_of_silent (f : Fleet) (h : e.said? = none) (hs : ∀ r now, e ≠ .save r now) :
    (f.step e).store = f.store ∧ (f.step e).ledgers = f.ledgers := by
  cases f.outcome e with
  | idle _ _ hstep | heard _ _ hstep | undescribed _ _ _ _ hstep | opened _ _ hstep
  | regrouped _ _ _ hstep =>
      rw [hstep]
      exact ⟨rfl, rfl⟩
  | served hserves =>
      rw [hserves.said] at h
      cases h
  | @closed conn _ hstep =>
      obtain ⟨registry, sessions, agents, hf⟩ := f.disconnect_frame conn
      rw [hstep, hf]
      exact ⟨rfl, rfl⟩
  | saved he => exact absurd he (hs _ _)

end Fleet

end FleetControl
