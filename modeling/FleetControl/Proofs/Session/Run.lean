import FleetControl.Proofs.Page.Listing
import FleetControl.Proofs.Table
import FleetControl.Proofs.Table.Sharded
import FleetControl.Session.Handler

/-!
# Runs — what can happen to a control plane

An `Event` is anything that changes a control plane: what a connection does, a command that is
saved, a change of the groups.  `Fleet.react` is the answer to an event, if it has one, and the
control plane afterwards; a run is events one after the other (`Fleet.run`).

A message can come to five things, which `Received` lists: its connection is not open, it is a
duplicate, it is refused, it leaves its agent undescribed, or it is served.  `receive_received` is
the inversion that every proof about messages starts from.
-/

namespace FleetControl

/-- What can happen. -/
inductive Event where
  | connect (conn : Bytes) (now : Instant)
  | message (conn : Bytes) (m : AgentMessage) (now : Instant)
  | frame (conn line : Bytes) (now : Instant)
  | close (conn : Bytes)
  | save (r : CommandLog.Request) (now : Instant)
  | createGroup (g : Group)
  | updateGroup (g : Group) (time : Instant) (user : Bytes)
  | deleteGroup (name : Bytes) (time : Instant) (user : Bytes)

/-- The message that an event brings, with its connection and time. -/
def Event.said? : Event → Option (Bytes × AgentMessage × Instant)
  | .message conn m now => some (conn, m, now)
  | .frame conn line now => (AgentMessage.decode line).toOption.map fun m => (conn, m, now)
  | _ => none

/-- A message is brought as itself or in a frame. -/
theorem Event.said_cases {e : Event} {conn : Bytes} {m : AgentMessage} {now : Instant}
    (h : e.said? = some (conn, m, now)) :
    e = .message conn m now ∨
      ∃ line, e = .frame conn line now ∧ AgentMessage.decode line = .ok m := by
  cases e with
  | message => cases h; exact .inl rfl
  | frame conn' line now' =>
      simp only [said?] at h
      cases hd : AgentMessage.decode line with
      | error => rw [hd] at h; cases h
      | ok m' =>
          rw [hd] at h
          cases h
          exact .inr ⟨line, rfl, hd⟩
  | connect | close | save | createGroup | updateGroup | deleteGroup => cases h

namespace Fleet

/-- The answer to an event, if it has one, and the control plane afterwards. -/
def react (f : Fleet) : Event → Option Reply × Fleet
  | .connect conn now => (none, (f.connect conn now).toOption.getD f)
  | .message conn m now => ((f.receive conn m now).1, (f.receive conn m now).2)
  | .frame conn line now => ((f.receiveFrame conn line now).1, (f.receiveFrame conn line now).2)
  | .close conn => (none, f.disconnect conn)
  | .save r now => (none, { f with store := (f.store.save now none r).2 })
  | .createGroup g => (none, match f.groups.create g with
    | .ok (_, groups) => { f with groups }
    | .error _ => f)
  | .updateGroup g time user => (none, match f.groups.update g time user with
    | .ok (_, groups) => { f with groups }
    | .error _ => f)
  | .deleteGroup name time user => (none, match f.groups.delete name time user with
    | .ok groups => { f with groups }
    | .error _ => f)

/-- The answer to an event, if it has one. -/
def reply? (f : Fleet) (e : Event) : Option Reply := (f.react e).1

/-- The control plane after an event. -/
def step (f : Fleet) (e : Event) : Fleet := (f.react e).2

/-- The control plane after some events. -/
def run (f : Fleet) (es : List Event) : Fleet := es.foldl step f

/-- A control plane that was just set up, over a log without a journal. -/
def IsFresh (f : Fleet) : Prop :=
  ∃ cursor plan shards log ids, CommandLog.setup cursor shards = .ok log ∧
    setup cursor plan { log, ids } = .ok f

/-- A control plane that was just set up, over any command log. -/
def IsSetUp (f : Fleet) : Prop := ∃ cursor plan store, setup cursor plan store = .ok f

/-- What a control plane begins with: nothing but its command log. -/
theorem setup_parts {f : Fleet} {cursor : Cursor} {plan : Plan} {store : CommandStore}
    (h : setup cursor plan store = .ok f) :
    f.store = store ∧ f.sessions = ∅ ∧ f.ledgers = ∅ ∧ f.groups = { cursor } ∧
      (∀ conn, f.registry.entries.get? conn = none) ∧ ∀ i, f.agents.agents.get? i = none := by
  rw [setup] at h
  by_cases hs : 0 < plan.shards
  · by_cases hp : 0 < plan.perReply
    · simp only [Registry.setup, AgentStore.setup, dif_pos hs, dif_pos hp] at h
      cases h
      exact ⟨rfl, rfl, rfl, rfl, Sharded.get?_empty _ _ hs, Sharded.get?_empty _ _ hs⟩
    · simp only [Registry.setup, AgentStore.setup, dif_pos hs, dif_neg hp] at h
      cases h
  · simp only [Registry.setup, dif_neg hs] at h
    cases h

/-- Replies with one command each; the ids of commands are 1, 2 and so on. -/
def sample : Fleet where
  registry := ⟨Cursor.plain, 60000, .empty Sharded.spread 1 Nat.one_pos⟩
  agents := ⟨Cursor.plain, .empty Sharded.spread 1 Nat.one_pos⟩
  groups := { cursor := .plain }
  store :=
    { log := { cursor := .plain }
      ids := { idAt := fun n => [UInt8.ofNat n] } }
  perReply := 1
  perReply_pos := by decide

/-- The sample is a control plane that was just set up. -/
theorem sample_isFresh : sample.IsFresh :=
  ⟨Cursor.plain, { shards := 1, perReply := 1 }, 1, _, _, rfl, rfl⟩

/-- Instance 7 describes itself and acknowledges commands. -/
def sampleMessage (conn : Bytes) (ids : List Bytes) : Event :=
  .message conn { instanceId := [7], description := some {}, acknowledged := ids } 8

/-- A log without a journal is one of the logs that a control plane can be set up over. -/
theorem IsFresh.isSetUp {f : Fleet} (h : f.IsFresh) : f.IsSetUp := by
  obtain ⟨cursor, plan, shards, log, ids, -, hf⟩ := h
  exact ⟨cursor, plan, _, hf⟩

@[simp] theorem run_nil (f : Fleet) : f.run [] = f := rfl

@[simp] theorem run_cons (f : Fleet) (e : Event) (es : List Event) :
    f.run (e :: es) = (f.step e).run es := rfl

/-- A run goes on from where the one before it ended. -/
theorem run_append (f : Fleet) (es es' : List Event) : f.run (es ++ es') = (f.run es).run es' :=
  List.foldl_append

/-- A frame that holds a message is that message. -/
theorem react_of_said {f : Fleet} {e : Event} {conn : Bytes} {m : AgentMessage} {now : Instant}
    (h : e.said? = some (conn, m, now)) :
    f.react e = (some (f.receive conn m now).1, (f.receive conn m now).2) := by
  obtain rfl | ⟨line, rfl, hd⟩ := Event.said_cases h
  · rfl
  · simp only [react, receiveFrame, hd]

/-- What an event with a message leaves is what receiving the message leaves. -/
theorem step_of_said {f : Fleet} {e : Event} {conn : Bytes} {m : AgentMessage} {now : Instant}
    (h : e.said? = some (conn, m, now)) : f.step e = (f.receive conn m now).2 :=
  congrArg Prod.snd (react_of_said h)

/-- An event with a message is answered as the message is. -/
theorem reply?_of_said {f : Fleet} {e : Event} {conn : Bytes} {m : AgentMessage} {now : Instant}
    (h : e.said? = some (conn, m, now)) : f.reply? e = some (f.receive conn m now).1 :=
  congrArg Prod.fst (react_of_said h)

/-! ### What a message comes to -/

/-- The control plane after a connection was heard from. -/
def heard (f : Fleet) (conn : Bytes) (now : Instant) : Fleet :=
  { f with registry := f.registry.touch conn now }

/-- The control plane with a connection's session and registration. -/
def keep (f : Fleet) (conn : Bytes) (s : Session) (registry : Registry) : Fleet :=
  { f with registry, sessions := f.sessions.insert conn s }

/-- A connection is open if it has a session that is not closed. -/
def IsOpen (f : Fleet) (conn : Bytes) : Prop :=
  ∃ s, f.sessions.get? conn = some s ∧ s.state ≠ .closed

/-- The answer that a message's sequence number gives rise to. -/
def opening (s : Session) (m : AgentMessage) : Reply :=
  match Sequence.of s.lastSequence m.sequenceNum with
  | .gap => ({ instanceId := m.instanceId } : Reply).requestFullState
  | _ => { instanceId := m.instanceId }

/-- Whose session it is after a message: the instance's that it was bound to before, or the one that
a description binds it to. -/
inductive Carries (f : Fleet) (conn : Bytes) (s : Session) (m : AgentMessage) :
    Session → Registry → Prop where
  | before (hs : s.state = .identified) (hi : s.instanceId = some m.instanceId) :
      Carries f conn s m s f.registry
  | binding {registry : Registry} (hs : s.state = .connected) (hd : m.description.isSome)
      (hb : f.registry.bind conn m.instanceId = .ok registry) :
      Carries f conn s m { s with state := .identified, instanceId := some m.instanceId } registry

/-- Whoever carries an instance is identified. -/
theorem Carries.state {f : Fleet} {conn : Bytes} {s s' : Session} {m : AgentMessage}
    {registry : Registry} (h : f.Carries conn s m s' registry) : s'.state = .identified := by
  cases h with
  | before hs => exact hs
  | binding => rfl

/-- The instance that is carried is the one that the message names. -/
theorem Carries.instanceId {f : Fleet} {conn : Bytes} {s s' : Session} {m : AgentMessage}
    {registry : Registry} (h : f.Carries conn s m s' registry) :
    s'.instanceId = some m.instanceId := by
  cases h with
  | before _ hi => exact hi
  | binding => rfl

/-- A session that is closed comes to carry nothing. -/
theorem Carries.isOpen {f : Fleet} {conn : Bytes} {s s' : Session} {m : AgentMessage}
    {registry : Registry} (h : f.Carries conn s m s' registry) : s.state ≠ .closed := by
  cases h with
  | before hs | binding hs => rw [hs]; decide

/-- What a message on a connection comes to: the answer and the control plane afterwards. -/
inductive Received (f : Fleet) (conn : Bytes) (m : AgentMessage) (now : Instant)
    (out : Reply × Fleet) : Prop where
  | unknown (h : ¬ f.IsOpen conn) (ho : out = (.rejection m.instanceId, f))
  | duplicate {s : Session} (h : f.sessions.get? conn = some s) (hopen : s.state ≠ .closed)
      (hs : Sequence.of s.lastSequence m.sequenceNum = .duplicate)
      (ho : out = ({ instanceId := m.instanceId }, f.heard conn now))
  | refused {s : Session} (h : f.sessions.get? conn = some s) (hopen : s.state ≠ .closed)
      (hs : Sequence.of s.lastSequence m.sequenceNum ≠ .duplicate)
      (hr : (f.heard conn now).identify conn s m = none)
      (ho : out = (.rejection m.instanceId, f.heard conn now))
  | undescribed {s : Session} (h : f.sessions.get? conn = some s)
      (hs : Sequence.of s.lastSequence m.sequenceNum ≠ .duplicate)
      (hi : s.state = .connected) (hd : m.description = none)
      (ho : out = ((opening s m).requestFullState,
        f.keep conn (Session.learn s m) (f.heard conn now).registry))
  | served {s s' : Session} {registry : Registry} (h : f.sessions.get? conn = some s)
      (hs : Sequence.of s.lastSequence m.sequenceNum ≠ .duplicate)
      (hc : (f.heard conn now).Carries conn s m s' registry)
      (ho : out = (f.keep conn (Session.learn s' m) registry).serveInstance conn m.instanceId
        (Session.learn s' m) m now (opening s m))

/-- The session and the registry that a message leaves are found by identifying it. -/
theorem identify_of_carries {f : Fleet} {conn : Bytes} {s s' : Session} {m : AgentMessage}
    {registry : Registry} (h : f.Carries conn s m s' registry) :
    f.identify conn s m = some (s', { f with registry }) := by
  cases h with
  | before hs hi => simp [identify, hs, hi]
  | binding hs hd hb => simp [identify, hs, Option.isSome_iff_ne_none.mp hd, hb]

/-- A message on an open connection is refused, leaves its agent undescribed, or is served. -/
theorem identify_cases (f : Fleet) (conn : Bytes) (m : AgentMessage) {s : Session}
    (hopen : s.state ≠ .closed) :
    f.identify conn s m = none ∨
      (s.state = .connected ∧ m.description = none) ∨
      ∃ s' registry, f.Carries conn s m s' registry := by
  cases hs : s.state with
  | closed => exact absurd hs hopen
  | identified =>
      by_cases hi : s.instanceId = some m.instanceId
      · exact .inr (.inr ⟨s, f.registry, .before hs hi⟩)
      · exact .inl (by simp [identify, hs, hi])
  | connected =>
      cases hd : m.description with
      | none => exact .inr (.inl ⟨rfl, rfl⟩)
      | some d =>
          cases hb : f.registry.bind conn m.instanceId with
          | error cause => exact .inl (by simp [identify, hs, hd, hb])
          | ok registry => exact .inr (.inr ⟨_, registry, .binding hs (by rw [hd]; rfl) hb⟩)

/-- A message is refused because its connection carries another instance or cannot be bound. -/
theorem identify_eq_none_iff {f : Fleet} {conn : Bytes} {s : Session} {m : AgentMessage} :
    f.identify conn s m = none ↔
      (s.state ≠ .connected ∧ s.instanceId ≠ some m.instanceId) ∨
        (s.state = .connected ∧ m.description ≠ none ∧
          ∃ cause, f.registry.bind conn m.instanceId = .error cause) := by
  rw [identify]
  by_cases hs : s.state = .connected
  · rw [if_pos hs]
    cases hd : m.description with
    | none => simp [hs]
    | some d => cases hb : f.registry.bind conn m.instanceId <;> simp [hs]
  · rw [if_neg hs]
    by_cases hi : s.instanceId = some m.instanceId <;> simp [hs, hi]

/-- A message for the instance of its session is served. -/
theorem process_of_carries {f : Fleet} {conn : Bytes} {s s' : Session} {m : AgentMessage}
    {registry : Registry} (h : f.Carries conn s m s' registry) (now : Instant) (reply : Reply) :
    f.process conn s m now reply =
      (f.keep conn (Session.learn s' m) registry).serveInstance conn m.instanceId
        (Session.learn s' m) m now reply := by
  have hs : (Session.learn s' m).state = .identified := h.state
  have hi : (Session.learn s' m).instanceId = some m.instanceId := h.instanceId
  rw [process, identify_of_carries h]
  simp only [hs, hi]
  rfl

/-- A message that is not for the instance of its session is answered with the rejection. -/
theorem process_of_refused {f : Fleet} {conn : Bytes} {m : AgentMessage} {s : Session}
    (h : f.identify conn s m = none) (now : Instant) (reply : Reply) :
    f.process conn s m now reply = (.rejection m.instanceId, f) := by
  rw [process, h]

/-- Whoever has not said what it is yet is asked to. -/
theorem process_of_undescribed {f : Fleet} {conn : Bytes} {m : AgentMessage} {s : Session}
    (hs : s.state = .connected) (hd : m.description = none) (now : Instant) (reply : Reply) :
    f.process conn s m now reply =
      (reply.requestFullState, f.keep conn (Session.learn s m) f.registry) := by
  have hidentify : f.identify conn s m = some (s, f) := by simp [identify, hs, hd]
  have hl : (Session.learn s m).state = .connected := hs
  rw [process, hidentify]
  simp only [hl]
  rfl

/-- Processing comes to one of the three things that are neither unknown nor a duplicate. -/
theorem process_received {f : Fleet} {conn : Bytes} {m : AgentMessage} {s : Session}
    (h : f.sessions.get? conn = some s) (hopen : s.state ≠ .closed)
    (hs : Sequence.of s.lastSequence m.sequenceNum ≠ .duplicate) (now : Instant) :
    f.Received conn m now ((f.heard conn now).process conn s m now (opening s m)) := by
  obtain hr | ⟨hi, hd⟩ | ⟨s', registry, hc⟩ := (f.heard conn now).identify_cases conn m hopen
  · rw [process_of_refused hr]
    exact .refused h hopen hs hr rfl
  · rw [process_of_undescribed hi hd]
    exact .undescribed h hs hi hd rfl
  · rw [process_of_carries hc]
    exact .served h hs hc rfl

/-- A message on a connection that is not open changes nothing. -/
theorem receive_of_unknown {f : Fleet} {conn : Bytes} (h : ¬ f.IsOpen conn)
    (m : AgentMessage) (now : Instant) :
    f.receive conn m now = (.rejection m.instanceId, f) := by
  rw [receive]
  cases hs : f.sessions.get? conn with
  | none => rfl
  | some s =>
      have hc : s.state = .closed := by_contra fun hopen => h ⟨s, hs, hopen⟩
      exact if_pos hc

/-- Of a duplicate nothing is looked at but its number. -/
theorem receive_of_duplicate {f : Fleet} {conn : Bytes} {m : AgentMessage} {s : Session}
    (h : f.sessions.get? conn = some s) (hopen : s.state ≠ .closed)
    (hs : Sequence.of s.lastSequence m.sequenceNum = .duplicate) (now : Instant) :
    f.receive conn m now = ({ instanceId := m.instanceId }, f.heard conn now) := by
  simp only [receive, h, if_neg hopen, hs]
  rfl

/-- A message that is no duplicate is processed. -/
theorem receive_of_fresh {f : Fleet} {conn : Bytes} {m : AgentMessage} {s : Session}
    (h : f.sessions.get? conn = some s) (hopen : s.state ≠ .closed)
    (hs : Sequence.of s.lastSequence m.sequenceNum ≠ .duplicate) (now : Instant) :
    f.receive conn m now = (f.heard conn now).process conn s m now (opening s m) := by
  cases hq : Sequence.of s.lastSequence m.sequenceNum with
  | duplicate => exact absurd hq hs
  | gap | inOrder => simp only [receive, h, if_neg hopen, hq, opening]; rfl

/-- The inversion of a message: it comes to one of the five things. -/
theorem receive_received (f : Fleet) (conn : Bytes) (m : AgentMessage) (now : Instant) :
    f.Received conn m now (f.receive conn m now) := by
  by_cases h : f.IsOpen conn
  · obtain ⟨s, hs, hopen⟩ := h
    by_cases hq : Sequence.of s.lastSequence m.sequenceNum = .duplicate
    · exact .duplicate hs hopen hq (receive_of_duplicate hs hopen hq now)
    · rw [receive_of_fresh hs hopen hq]
      exact process_received hs hopen hq now
  · exact .unknown h (receive_of_unknown h m now)

/-! ### What is passed over -/

/-- What is left of input that is not accepted: that its connection, if it has a session, was heard
from. -/
def passOver (f : Fleet) (conn : Bytes) (now : Instant) : Fleet :=
  if f.sessions.contains conn then f.heard conn now else f

/-- A connection that has a session is heard from. -/
theorem passOver_of_session {f : Fleet} {conn : Bytes} {s : Session}
    (h : f.sessions.get? conn = some s) (now : Instant) :
    f.passOver conn now = f.heard conn now :=
  if_pos (Table.contains_iff.mpr ⟨s, h⟩)

/-- A connection without a session is not heard from. -/
theorem passOver_of_none {f : Fleet} {conn : Bytes} (h : f.sessions.get? conn = none)
    (now : Instant) : f.passOver conn now = f := by
  rw [passOver, Table.contains, h]
  rfl

/-- A frame that holds no message is rejected, and names no instance. -/
theorem react_of_malformed {line : Bytes} {cause : FrameRefusal}
    (h : AgentMessage.decode line = .error cause) (f : Fleet) (conn : Bytes) (now : Instant) :
    f.react (.frame conn line now) = (some (.rejection []), f.passOver conn now) := by
  simp only [react, receiveFrame, h]
  rfl

/-! ### Parts that a message leaves alone -/

section Frame

variable (f : Fleet) (conn i : Bytes) (m : AgentMessage) (g : Option Group) (now : Instant)

/-- Recording a report changes the agent records and nothing else. -/
theorem recordReport_frame : ∃ agents, f.recordReport conn m g now = { f with agents } := by
  simp only [recordReport]
  split
  · exact ⟨_, rfl⟩
  · exact ⟨f.agents, rfl⟩

/-- A report does not touch the command log. -/
@[simp] theorem recordReport_store : (f.recordReport conn m g now).store = f.store := by
  obtain ⟨agents, h⟩ := f.recordReport_frame conn m g now
  rw [h]

@[simp] theorem recordReport_ledgers : (f.recordReport conn m g now).ledgers = f.ledgers := by
  obtain ⟨agents, h⟩ := f.recordReport_frame conn m g now
  rw [h]

/-- A report does not touch the sessions. -/
@[simp] theorem recordReport_sessions : (f.recordReport conn m g now).sessions = f.sessions := by
  obtain ⟨agents, h⟩ := f.recordReport_frame conn m g now
  rw [h]

@[simp] theorem recordReport_perReply : (f.recordReport conn m g now).perReply = f.perReply := by
  obtain ⟨agents, h⟩ := f.recordReport_frame conn m g now
  rw [h]

/-- Acknowledging changes the ledgers and nothing else. -/
theorem acknowledge_frame (ids : List Bytes) :
    ∃ ledgers, f.acknowledge i ids = { f with ledgers } := by
  rw [acknowledge]
  split
  · exact ⟨f.ledgers, rfl⟩
  · exact ⟨_, rfl⟩

/-- Delivering changes the ledgers and nothing else. -/
theorem deliver_frame (reply : Reply) : ∃ ledgers, (f.deliver i reply).2 = { f with ledgers } := by
  simp only [deliver]
  split
  · exact ⟨f.ledgers, rfl⟩
  · split
    · exact ⟨f.ledgers, rfl⟩
    · exact ⟨_, rfl⟩

/-- Serving records the report, and apart from that changes the ledgers and nothing else. -/
theorem serveInstance_frame (s : Session) (reply : Reply) :
    ∃ ledgers, (f.serveInstance conn i s m now reply).2 =
      { f.recordReport conn m (Group.resolve s.identifying f.groups.snapshot) now with ledgers } := by
  let recorded := f.recordReport conn m (Group.resolve s.identifying f.groups.snapshot) now
  obtain ⟨acked, ha⟩ := recorded.acknowledge_frame i m.acknowledged
  obtain ⟨ledgers, hd⟩ := deliver_frame (recorded.acknowledge i m.acknowledged) i
    { reply with
      remoteConfig := configToPush (Group.resolve s.identifying f.groups.snapshot) s.configHash }
  exact ⟨ledgers, by rw [serveInstance, hd, ha]⟩

@[simp] theorem acknowledge_store (ids : List Bytes) : (f.acknowledge i ids).store = f.store := by
  obtain ⟨ledgers, h⟩ := f.acknowledge_frame i ids
  rw [h]

@[simp] theorem acknowledge_perReply (ids : List Bytes) :
    (f.acknowledge i ids).perReply = f.perReply := by
  obtain ⟨ledgers, h⟩ := f.acknowledge_frame i ids
  rw [h]

@[simp] theorem deliver_store (reply : Reply) : (f.deliver i reply).2.store = f.store := by
  obtain ⟨ledgers, h⟩ := f.deliver_frame i reply
  rw [h]

/-- Delivering adds commands to a reply and may set a flag; the rest of it stays. -/
theorem deliver_reply (reply : Reply) :
    ∃ commands flags, (f.deliver i reply).1 = { reply with commands, flags } := by
  simp only [deliver]
  split
  · exact ⟨_, _, rfl⟩
  · split <;> split <;> exact ⟨_, _, rfl⟩

/-- Delivering makes no error of a reply. -/
@[simp] theorem deliver_error (reply : Reply) : (f.deliver i reply).1.error = reply.error := by
  obtain ⟨commands, flags, h⟩ := f.deliver_reply i reply
  rw [h]

@[simp] theorem deliver_remoteConfig (reply : Reply) :
    (f.deliver i reply).1.remoteConfig = reply.remoteConfig := by
  obtain ⟨commands, flags, h⟩ := f.deliver_reply i reply
  rw [h]

/-- The session is kept before its instance is served, which leaves it. -/
@[simp] theorem serveInstance_sessions (s : Session) (reply : Reply) :
    (f.serveInstance conn i s m now reply).2.sessions = f.sessions := by
  obtain ⟨ledgers, h⟩ := f.serveInstance_frame conn i m now s reply
  rw [h, ← f.recordReport_sessions conn m _ now]

/-- Serving makes no error of a reply. -/
@[simp] theorem serveInstance_error (s : Session) (reply : Reply) :
    (f.serveInstance conn i s m now reply).1.error = reply.error := by
  simp [serveInstance]

/-- What is pushed is decided by the group of the session alone. -/
@[simp] theorem serveInstance_remoteConfig (s : Session) (reply : Reply) :
    (f.serveInstance conn i s m now reply).1.remoteConfig =
      configToPush (Group.resolve s.identifying f.groups.snapshot) s.configHash := by
  simp [serveInstance]

@[simp] theorem opening_error (s : Session) : (opening s m).error = none := by
  rw [opening]; split <;> rfl

end Frame

end Fleet

end FleetControl
