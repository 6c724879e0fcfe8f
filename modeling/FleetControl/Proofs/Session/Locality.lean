import FleetControl.Proofs.Session.Outcome

/-!
# Locality — what an event on a connection reads and what it changes

An event on a connection looks at that connection's entry and session, and if it brings a message,
at what is kept of the instance that the message names (`SameFor`).  It changes nothing but these and
the record of one agent (`Fleet.change`).  Where it finds the same, it is answered the same and makes
the same change, whatever else is there: that is `locality`.

Changes of different connections commute unless both are for one instance (`change_comm`), and
neither shows in what the other event looks at (`sameFor_change`).
-/

namespace FleetControl

/-- The connection that an event is on. -/
def Event.conn? : Event → Option Bytes
  | .connect conn _ | .message conn _ _ | .frame conn _ _ | .close conn => some conn
  | .save .. | .createGroup _ | .updateGroup .. | .deleteGroup .. => none

/-- The instance that the message of an event names. -/
def Event.names? (e : Event) : Option Bytes := e.said?.map (·.2.1.instanceId)

/-- A message is on a connection. -/
theorem Event.conn?_of_said {e : Event} {conn : Bytes} {m : AgentMessage} {now : Instant}
    (h : e.said? = some (conn, m, now)) : e.conn? = some conn := by
  obtain rfl | ⟨line, rfl, -⟩ := said_cases h <;> rfl

theorem Event.names?_of_said {e : Event} {conn : Bytes} {m : AgentMessage} {now : Instant}
    (h : e.said? = some (conn, m, now)) : e.names? = some m.instanceId := by
  rw [names?, h, Option.map_some]

namespace Fleet

variable {f g : Fleet} {e e₁ e₂ : Event} {conn c₁ c₂ i : Bytes} {m : AgentMessage} {now : Instant}
  {s s' : Session} {registry : Registry}

/-- Why an event does not open its connection, if it is to open one and does not. -/
def refusal? (f : Fleet) : Event → Option Registry.Refusal
  | .connect conn now => match f.connect conn now with
    | .ok _ => none
    | .error cause => some cause
  | _ => none

/-- What is answered to an event: why its connection is not opened, or the reply to its message. -/
def answered (f : Fleet) (e : Event) : Option Registry.Refusal × Option Reply :=
  (f.refusal? e, f.reply? e)

/-! ### What is looked at -/

/-- Both have the same of a connection. -/
structure SameAt (conn : Bytes) (f g : Fleet) : Prop where
  entry : g.registry.entries.get? conn = f.registry.entries.get? conn
  session : g.sessions.get? conn = f.sessions.get? conn

/-- Both have the same of an instance: its ledger, its commands as far as these count for it, and
what goes for all instances. -/
structure SameOf (i : Bytes) (f g : Fleet) : Prop where
  ledger : g.ledgers.get? i = f.ledgers.get? i
  acknowledged : ∀ ids, g.acknowledgedKeys i ids = f.acknowledgedKeys i ids
  pending : ∀ after limit,
    g.store.ofInstanceAfter i after limit = f.store.ofInstanceAfter i after limit
  groups : g.groups = f.groups
  perReply : g.perReply = f.perReply

/-- Both have the same of what an event looks at. -/
structure SameFor (e : Event) (f g : Fleet) : Prop where
  connection : ∀ conn, e.conn? = some conn → SameAt conn f g
  instance_ : ∀ i, e.names? = some i → SameOf i f g

/-- A control plane has the same as itself. -/
theorem sameFor_refl (e : Event) (f : Fleet) : SameFor e f f :=
  ⟨fun _ _ => ⟨rfl, rfl⟩, fun _ _ => ⟨rfl, fun _ => rfl, fun _ _ => rfl, rfl, rfl⟩⟩

/-! ### What is changed -/

/-- What an event leaves of its connection and its instance, and does to the record of an agent. -/
structure Change where
  entry : Option Registry.Entry
  session : Option Session
  record : AgentStore.Change := .keep
  /-- The instance whose ledger is changed, and what is left of that. -/
  ledger : Option (Bytes × Option Ledger) := none

/-- The ledgers with a change of one made. -/
def setLedger (ledgers : Table Ledger) : Option (Bytes × Option Ledger) → Table Ledger
  | none => ledgers
  | some (i, l) => ledgers.alter i fun _ => l

/-- The control plane with a change made on a connection. -/
def change (f : Fleet) (conn : Bytes) (d : Change) : Fleet :=
  { f with
    registry := f.registry.set conn d.entry
    sessions := f.sessions.alter conn fun _ => d.session
    agents := f.agents.change d.record
    ledgers := setLedger f.ledgers d.ledger }

/-- A change is one that the event on this connection may make: a record is changed for the
connection, and reports and ledgers are those of the instance that is named. -/
structure Change.Fits (d : Change) (e : Event) (conn : Bytes) : Prop where
  record : ∀ c, d.record.conn? = some c → c = conn
  report : ∀ r, d.record = .report r → e.names? = some r.instanceId
  ledger : ∀ i l, d.ledger = some (i, l) → e.names? = some i

/-- A change that leaves records and ledgers alone. -/
theorem Change.fits_of_keep {entry : Option Registry.Entry} {session : Option Session} :
    ({ entry, session } : Change).Fits e conn :=
  ⟨nofun, nofun, nofun⟩

/-- A change that leaves a connection as it is. -/
theorem change_eq_self {entry : Option Registry.Entry} {session : Option Session}
    (he : entry = f.registry.entries.get? conn) (hs : session = f.sessions.get? conn) :
    f.change conn { entry, session } = f := by
  rw [change, he, hs, Registry.set_eq_self, Table.alter_eq_self rfl, AgentStore.change_keep]
  rfl

/-! ### Two changes -/

/-- Ledgers of different instances are changed in either order. -/
theorem setLedger_comm {a b : Option (Bytes × Option Ledger)}
    (h : ∀ i l j l', a = some (i, l) → b = some (j, l') → i ≠ j) (ledgers : Table Ledger) :
    setLedger (setLedger ledgers a) b = setLedger (setLedger ledgers b) a := by
  cases a with
  | none => rfl
  | some p =>
      cases b with
      | none => rfl
      | some q =>
          exact Table.alter_comm (fun hij => absurd hij (h _ _ _ _ rfl rfl)) ledgers

/-- Changes on different connections commute, unless both are for one instance. -/
theorem change_comm {d₁ d₂ : Change} (h₁ : d₁.Fits e₁ c₁) (h₂ : d₂.Fits e₂ c₂) (hc : c₁ ≠ c₂)
    (hn : ∀ i, e₁.names? = some i → e₂.names? ≠ some i) :
    (f.change c₁ d₁).change c₂ d₂ = (f.change c₂ d₂).change c₁ d₁ := by
  have hregistry : (f.registry.set c₁ d₁.entry).set c₂ d₂.entry =
      (f.registry.set c₂ d₂.entry).set c₁ d₁.entry :=
    congrArg (Registry.mk f.registry.cursor f.registry.livenessMs)
      (Sharded.alter_comm (fun h => absurd h hc) _)
  have hsessions : (f.sessions.alter c₁ fun _ => d₁.session).alter c₂ (fun _ => d₂.session) =
      (f.sessions.alter c₂ fun _ => d₂.session).alter c₁ fun _ => d₁.session :=
    Table.alter_comm (fun h => absurd h hc) _
  have hagents : (f.agents.change d₁.record).change d₂.record =
      (f.agents.change d₂.record).change d₁.record := by
    refine AgentStore.change_comm (fun c hd₁ hd₂ => hc ?_) (fun r r' hr hr' hi => ?_) _
    · rw [← h₁.record c hd₁, h₂.record c hd₂]
    · refine hn _ (h₁.report r hr) ?_
      rw [hi]
      exact h₂.report r' hr'
  have hledgers : setLedger (setLedger f.ledgers d₁.ledger) d₂.ledger =
      setLedger (setLedger f.ledgers d₂.ledger) d₁.ledger := by
    refine setLedger_comm (fun i l j l' hi hj hij => ?_) _
    subst hij
    exact hn _ (h₁.ledger i l hi) (h₂.ledger i l' hj)
  simp only [change, hregistry, hsessions, hagents, hledgers]

/-- What an event looks at does not show the change of another on another connection, unless both
are for one instance. -/
theorem sameFor_change {d₁ : Change} (h₁ : d₁.Fits e₁ c₁) (h₂ : e₂.conn? = some c₂) (hc : c₁ ≠ c₂)
    (hn : ∀ i, e₁.names? = some i → e₂.names? ≠ some i) : SameFor e₂ f (f.change c₁ d₁) where
  connection c h := by
    obtain rfl : c₂ = c := Option.some.inj (h₂.symm.trans h)
    exact ⟨Sharded.get?_alter_of_ne (Ne.symm hc) _ _, Table.get?_alter_of_ne (Ne.symm hc) _ _⟩
  instance_ i hi := by
    refine ⟨?_, fun _ => rfl, fun _ _ => rfl, rfl, rfl⟩
    simp only [change]
    cases hl : d₁.ledger with
    | none => rfl
    | some p =>
        obtain ⟨j, l⟩ := p
        have hij : i ≠ j := by
          rintro rfl
          exact hn i (h₁.ledger i l hl) hi
        exact Table.get?_alter_of_ne hij _ _

/-! ### Serving -/

/-- The control plane with another ledger of an instance. -/
def putLedger (f : Fleet) (i : Bytes) (l : Option Ledger) : Fleet :=
  { f with ledgers := f.ledgers.alter i fun _ => l }

/-- A ledger that is there already changes nothing. -/
theorem putLedger_eq_self {l : Option Ledger} (h : l = f.ledgers.get? i) : f.putLedger i l = f := by
  rw [putLedger, Table.alter_eq_self h]

/-- Of two ledgers that are put for one instance the later stays. -/
theorem putLedger_putLedger (f : Fleet) (i : Bytes) (l l' : Option Ledger) :
    (f.putLedger i l).putLedger i l' = f.putLedger i l' := by
  rw [putLedger, putLedger, putLedger, Table.alter_alter]

theorem get?_putLedger (f : Fleet) (i : Bytes) (l : Option Ledger) :
    (f.putLedger i l).ledgers.get? i = l :=
  Table.get?_alter_self _ _ _

/-- Both have the same of an instance whose ledger is put in both. -/
theorem SameOf.putLedger (h : SameOf i f g) (l : Option Ledger) :
    SameOf i (f.putLedger i l) (g.putLedger i l) :=
  ⟨by rw [get?_putLedger, get?_putLedger], h.acknowledged, h.pending, h.groups, h.perReply⟩

/-- Acknowledging leaves the same ledger wherever it finds the same of its instance. -/
theorem SameOf.acknowledge (h : SameOf i f g) (ids : List Bytes) :
    ∃ l, f.acknowledge i ids = f.putLedger i l ∧ g.acknowledge i ids = g.putLedger i l := by
  have hsame : f.ledgers.get? i = g.ledgers.get? i := h.ledger.symm
  rw [Fleet.acknowledge, Fleet.acknowledge, h.acknowledged]
  cases f.acknowledgedKeys i ids with
  | nil => exact ⟨_, (putLedger_eq_self rfl).symm, (putLedger_eq_self hsame).symm⟩
  | cons key keys =>
      refine ⟨some (((f.ledgers.get? i).getD {}).acknowledgeAll (key :: keys)), ?_, ?_⟩
      · simp only [Fleet.putLedger]
        congr 1
        exact Table.alter_congr rfl
      · simp only [Fleet.putLedger]
        congr 1
        exact Table.alter_congr (by rw [hsame])

/-- Delivering answers the same and leaves the same ledger wherever it finds the same of its
instance. -/
theorem SameOf.deliver (h : SameOf i f g) (reply : Reply) :
    (g.deliver i reply).1 = (f.deliver i reply).1 ∧
      ∃ l, (f.deliver i reply).2 = f.putLedger i l ∧ (g.deliver i reply).2 = g.putLedger i l := by
  have hsame : f.ledgers.get? i = g.ledgers.get? i := h.ledger.symm
  have hledger : g.ledger i = f.ledger i := by rw [Fleet.ledger, Fleet.ledger, hsame]
  simp only [Fleet.deliver, hledger, h.pending, h.perReply]
  cases f.store.ofInstanceAfter i (f.ledger i).watermark
      ((f.ledger i).window f.perReply).toNat with
  | error cause =>
      exact ⟨rfl, _, (putLedger_eq_self rfl).symm, (putLedger_eq_self hsame).symm⟩
  | ok pending =>
      by_cases hmoves : (((f.ledger i).pick f.perReply.toNat pending).watermark ==
          (f.ledger i).watermark) = true
      · simp only [if_pos hmoves]
        exact ⟨trivial, _, (putLedger_eq_self rfl).symm, (putLedger_eq_self hsame).symm⟩
      · simp only [if_neg hmoves]
        refine ⟨trivial, _, rfl, ?_⟩
        simp only [Fleet.putLedger, h.perReply]
        rfl

/-- Recording a report is a change of one agent record. -/
theorem recordReport_eq (f : Fleet) (conn : Bytes) (m : AgentMessage) (group : Option Group)
    (now : Instant) : f.recordReport conn m group now =
      { f with agents := f.agents.change (.report (reportOf conn m group now)) } := by
  rw [AgentStore.change_report]
  cases h : f.agents.report (reportOf conn m group now) with
  | ok recorded => exact recordReport_of_report h
  | error cause =>
      rw [reportOf] at h
      simp only [recordReport, h]

/-- Serving an instance records its report, and comes to the same reply and the same ledger wherever
it finds the same of it. -/
theorem SameOf.serveInstance (h : SameOf i f g) (conn : Bytes) (s : Session) (m : AgentMessage)
    (now : Instant) (reply : Reply) :
    (g.serveInstance conn i s m now reply).1 = (f.serveInstance conn i s m now reply).1 ∧
      ∃ l, (f.serveInstance conn i s m now reply).2 =
          (f.recordReport conn m (f.groupOf s) now).putLedger i l ∧
        (g.serveInstance conn i s m now reply).2 =
          (g.recordReport conn m (f.groupOf s) now).putLedger i l := by
  -- a report changes one agent record, which no instance answers by
  have hrecorded : SameOf i (f.recordReport conn m (f.groupOf s) now)
      (g.recordReport conn m (f.groupOf s) now) := by
    rw [recordReport_eq, recordReport_eq]
    exact ⟨h.ledger, h.acknowledged, h.pending, h.groups, h.perReply⟩
  obtain ⟨acknowledged, hf, hg⟩ := hrecorded.acknowledge m.acknowledged
  obtain ⟨hreply, l, hf', hg'⟩ := (hrecorded.putLedger acknowledged).deliver
    { reply with remoteConfig := configToPush (f.groupOf s) s.configHash }
  have hgroup : Group.resolve s.identifying g.groups.snapshot = f.groupOf s := by
    rw [h.groups]
    rfl
  have hgroup' : Group.resolve s.identifying f.groups.snapshot = f.groupOf s := rfl
  simp only [Fleet.serveInstance, hgroup, hgroup', hf, hg]
  exact ⟨hreply, l, hf'.trans (putLedger_putLedger _ _ _ _),
    hg'.trans (putLedger_putLedger _ _ _ _)⟩

/-! ### Messages -/

/-- A connection is open in both or in none. -/
theorem SameAt.isOpen_iff (h : SameAt conn f g) : g.IsOpen conn ↔ f.IsOpen conn := by
  rw [Fleet.IsOpen, Fleet.IsOpen, h.session]

/-- Hearing from a connection leaves the same of it. -/
theorem SameAt.heard (h : SameAt conn f g) (now : Instant) :
    SameAt conn (f.heard conn now) (g.heard conn now) where
  entry := by
    simp only [Fleet.heard, Registry.touch, Sharded.get?_modify, if_true, h.entry]
  session := h.session

/-- A message is refused wherever it finds the same. -/
theorem SameAt.identify_eq_none (h : SameAt conn f g) (hr : f.identify conn s m = none) :
    g.identify conn s m = none := by
  rw [identify_eq_none_iff] at hr ⊢
  refine hr.imp id fun ⟨hs, hd, cause, hb⟩ => ⟨hs, hd, cause, ?_⟩
  rw [Registry.bind_local h.entry, hb]
  rfl

/-- A session carries an instance wherever a message finds the same. -/
theorem SameAt.carries (h : SameAt conn f g) (hc : f.Carries conn s m s' registry) :
    g.Carries conn s m s' (g.registry.set conn (registry.entries.get? conn)) := by
  cases hc with
  | before hs hi =>
      rw [← h.entry, Registry.set_eq_self]
      exact .before hs hi
  | binding hs hd hb =>
      refine .binding hs hd ?_
      rw [Registry.bind_local h.entry, hb]
      rfl

/-- A connection that is heard from has this made of its entry and keeps its session. -/
theorem heard_eq_change (h : f.sessions.get? conn = some s) (now : Instant) :
    f.heard conn now = f.change conn
      { entry := (f.heard conn now).registry.entries.get? conn, session := some s } := by
  have hregistry : (f.heard conn now).registry =
      f.registry.set conn ((f.heard conn now).registry.entries.get? conn) := by
    rw [Fleet.heard, Registry.touch_eq_set, Registry.get?_set]
  rw [change, ← hregistry, Table.alter_eq_self h.symm, AgentStore.change_keep]
  rfl

/-- Keeping a session and an entry is a change of one connection. -/
theorem keep_eq_change (f : Fleet) (conn : Bytes) (now : Instant) (s : Session)
    (entry : Option Registry.Entry) :
    f.keep conn s ((f.heard conn now).registry.set conn entry) =
      f.change conn { entry, session := some s } := by
  rw [change, AgentStore.change_keep, keep, Fleet.heard, Registry.touch_eq_set, Registry.set_set]
  rfl

/-- Input that is passed over changes the same wherever it finds the same of its connection. -/
theorem passOver_local (f : Fleet) (conn : Bytes) (now : Instant) :
    ∃ d : Change, (∀ e : Event, d.Fits e conn) ∧
      ∀ g, SameAt conn f g → g.passOver conn now = g.change conn d := by
  cases hs : f.sessions.get? conn with
  | none =>
      refine ⟨{ entry := f.registry.entries.get? conn, session := none },
        fun _ => Change.fits_of_keep, fun g hat => ?_⟩
      have hs' : g.sessions.get? conn = none := hat.session.trans hs
      rw [passOver_of_none hs', change_eq_self hat.entry.symm hs'.symm]
  | some s =>
      refine ⟨{ entry := (f.heard conn now).registry.entries.get? conn, session := some s },
        fun _ => Change.fits_of_keep, fun g hat => ?_⟩
      have hs' : g.sessions.get? conn = some s := hat.session.trans hs
      rw [passOver_of_session hs', heard_eq_change hs', (hat.heard now).entry]

/-- What a message that is served changes, if it leaves a session and an entry of its connection. -/
def served (f : Fleet) (conn : Bytes) (m : AgentMessage) (now : Instant) (learnt : Session)
    (entry : Option Registry.Entry) : Change where
  entry
  session := some learnt
  record := .report (reportOf conn m (f.groupOf learnt) now)
  ledger := some (m.instanceId, (f.receive conn m now).2.ledgers.get? m.instanceId)

/-- A message that is served is answered the same and changes the same wherever it finds the same of
its connection and of the instance that it names. -/
theorem receive_served_local (hs : f.sessions.get? conn = some s)
    (hq : Sequence.of s.lastSequence m.sequenceNum ≠ .duplicate)
    (hc : (f.heard conn now).Carries conn s m s' registry) (hat : SameAt conn f g)
    (hof : SameOf m.instanceId f g) :
    g.receive conn m now = ((f.receive conn m now).1, g.change conn
      (f.served conn m now (Session.learn s' m) (registry.entries.get? conn))) := by
  let learnt := Session.learn s' m
  let kept := f.keep conn learnt registry
  let registry' := (g.heard conn now).registry.set conn (registry.entries.get? conn)
  have hs' : g.sessions.get? conn = some s := hat.session.trans hs
  have hf : f.receive conn m now =
      kept.serveInstance conn m.instanceId learnt m now (opening s m) := by
    rw [receive_of_fresh hs hc.isOpen hq, process_of_carries hc]
    rfl
  have hg : g.receive conn m now = (g.keep conn learnt registry').serveInstance conn m.instanceId
      learnt m now (opening s m) := by
    rw [receive_of_fresh hs' hc.isOpen hq, process_of_carries ((hat.heard now).carries hc)]
    rfl
  have hkept : SameOf m.instanceId kept (g.keep conn learnt registry') :=
    ⟨hof.ledger, hof.acknowledged, hof.pending, hof.groups, hof.perReply⟩
  obtain ⟨hreply, l, hafter, hafter'⟩ := hkept.serveInstance conn learnt m now (opening s m)
  have hl : (f.receive conn m now).2.ledgers.get? m.instanceId = l := by
    rw [hf, hafter, get?_putLedger]
  rw [served, hl, hf, hg]
  refine Prod.ext hreply (hafter'.trans ?_)
  rw [keep_eq_change, recordReport_eq]
  simp only [change, AgentStore.change_keep]
  rfl

/-- A message is answered the same and changes the same wherever it finds the same of its connection
and of the instance that it names. -/
theorem receive_local (f : Fleet) (h : e.said? = some (conn, m, now)) :
    ∃ d : Change, d.Fits e conn ∧ ∀ g, SameAt conn f g → SameOf m.instanceId f g →
      g.receive conn m now = ((f.receive conn m now).1, g.change conn d) := by
  have hnames : e.names? = some m.instanceId := Event.names?_of_said h
  obtain ⟨d, hfits, hpassed⟩ := f.passOver_local conn now
  -- each outcome gives one change, whose parts are what this control plane is left with
  cases f.receive_received conn m now with
  | unknown hs ho =>
      refine ⟨{ entry := f.registry.entries.get? conn, session := f.sessions.get? conn },
        Change.fits_of_keep, fun g hat _ => ?_⟩
      have hs' : ¬ g.IsOpen conn := mt hat.isOpen_iff.mp hs
      rw [receive_of_unknown hs', ho, change_eq_self hat.entry.symm hat.session.symm]
  | @duplicate s hs hopen hq ho =>
      refine ⟨d, hfits e, fun g hat _ => ?_⟩
      have hs' : g.sessions.get? conn = some s := hat.session.trans hs
      rw [receive_of_duplicate hs' hopen hq, ho, ← hpassed g hat, passOver_of_session hs']
  | @refused s hs hopen hq hr ho =>
      refine ⟨d, hfits e, fun g hat _ => ?_⟩
      have hs' : g.sessions.get? conn = some s := hat.session.trans hs
      have hr' := (hat.heard now).identify_eq_none hr
      rw [receive_of_fresh hs' hopen hq, process_of_refused hr', ho, ← hpassed g hat,
        passOver_of_session hs']
  | @undescribed s hs hq hi hd ho =>
      refine ⟨{ entry := (f.heard conn now).registry.entries.get? conn
                session := some (Session.learn s m) }, Change.fits_of_keep, fun g hat _ => ?_⟩
      have hs' : g.sessions.get? conn = some s := hat.session.trans hs
      have hopen : s.state ≠ .closed := by rw [hi]; decide
      rw [receive_of_fresh hs' hopen hq, process_of_undescribed hi hd, ho,
        ← keep_eq_change g conn now, ← (hat.heard now).entry, Registry.set_eq_self]
      rfl
  | @served s s' registry hs hq hc =>
      refine ⟨f.served conn m now (Session.learn s' m) (registry.entries.get? conn), ⟨?_, ?_, ?_⟩,
        fun g hat hof => receive_served_local hs hq hc hat hof⟩
      · rintro _ ⟨⟩
        rfl
      · rintro _ ⟨⟩
        exact hnames
      · rintro _ _ ⟨⟩
        exact hnames

/-! ### All events on connections -/

/-- An event is answered the same and changes the same, by a change that is its own, wherever it
finds the same. -/
def IsLocal (f : Fleet) (e : Event) (conn : Bytes) (d : Change) : Prop :=
  d.Fits e conn ∧
    ∀ g, SameFor e f g → g.answered e = f.answered e ∧ g.step e = g.change conn d

/-- Messages are local. -/
theorem isLocal_of_said (f : Fleet) (h : e.said? = some (conn, m, now)) :
    ∃ d, f.IsLocal e conn d := by
  obtain ⟨d, hfits, hlocal⟩ := f.receive_local h
  have hrefusal (g : Fleet) : g.refusal? e = none := by
    obtain rfl | ⟨line, rfl, -⟩ := Event.said_cases h <;> rfl
  refine ⟨d, hfits, fun g hg => ?_⟩
  have hreceive := hlocal g (hg.connection conn (Event.conn?_of_said h))
    (hg.instance_ m.instanceId (Event.names?_of_said h))
  rw [answered, answered, hrefusal, hrefusal, reply?_of_said h, reply?_of_said h, step_of_said h,
    hreceive]
  exact ⟨rfl, rfl⟩

/-- Opening a connection is local, also if it is refused. -/
theorem isLocal_connect (f : Fleet) (conn : Bytes) (now : Instant) :
    ∃ d, f.IsLocal (.connect conn now) conn d := by
  have hlocal {g : Fleet} (hg : SameFor (.connect conn now) f g) :=
    Registry.register_local (hg.connection conn rfl).entry now
  cases hr : f.registry.register conn now with
  | error cause =>
      refine ⟨{ entry := f.registry.entries.get? conn, session := f.sessions.get? conn },
        Change.fits_of_keep, fun g hg => ?_⟩
      have hat := hg.connection conn rfl
      have hr' : g.registry.register conn now = .error cause := by
        rw [hlocal hg, hr]
        rfl
      rw [change_eq_self hat.entry.symm hat.session.symm]
      simp only [answered, refusal?, reply?, step, react, connect, hr, hr']
      exact ⟨rfl, rfl⟩
  | ok registry =>
      refine ⟨{ entry := registry.entries.get? conn, session := some {} }, Change.fits_of_keep,
        fun g hg => ?_⟩
      have hr' : g.registry.register conn now =
          .ok (g.registry.set conn (registry.entries.get? conn)) := by
        rw [hlocal hg, hr]
        rfl
      simp only [answered, refusal?, reply?, step, react, connect, hr, hr', change,
        AgentStore.change_keep]
      exact ⟨rfl, rfl⟩

/-- Frames that hold no message are local. -/
theorem isLocal_malformed (f : Fleet) {line : Bytes} {cause : FrameRefusal}
    (hd : AgentMessage.decode line = .error cause) (conn : Bytes) (now : Instant) :
    ∃ d, f.IsLocal (.frame conn line now) conn d := by
  obtain ⟨d, hfits, hpassed⟩ := f.passOver_local conn now
  refine ⟨d, hfits _, fun g hg => ?_⟩
  rw [answered, answered, reply?, reply?, step, react_of_malformed hd, react_of_malformed hd,
    hpassed g (hg.connection conn rfl)]
  exact ⟨rfl, rfl⟩

/-- What a close does to the record of an agent. -/
def dropped (f : Fleet) (conn : Bytes) : AgentStore.Change :=
  match (f.sessions.get? conn).bind (·.instanceId) with
  | some i => .drop i conn
  | none => .keep

/-- A close is a change of its connection and of one record. -/
theorem disconnect_eq_change (f : Fleet) (conn : Bytes) :
    f.disconnect conn =
      f.change conn { entry := none, session := none, record := f.dropped conn } := by
  rw [dropped, disconnect, change]
  cases hs : f.sessions.get? conn with
  | none =>
      simp only [Option.bind_none]
      rw [Table.alter_eq_self hs.symm, AgentStore.change_keep]
      rfl
  | some s =>
      cases hi : s.instanceId with
      | none =>
          simp only [Option.bind_some, hi]
          rw [AgentStore.change_keep]
          rfl
      | some i =>
          simp only [Option.bind_some, hi]
          rfl

/-- Closing a connection is local. -/
theorem isLocal_close (f : Fleet) (conn : Bytes) : ∃ d, f.IsLocal (.close conn) conn d := by
  refine ⟨{ entry := none, session := none, record := f.dropped conn }, ⟨?_, ?_, nofun⟩,
    fun g hg => ⟨rfl, ?_⟩⟩
  · intro c hc
    simp only [dropped] at hc
    split at hc
    · cases hc; rfl
    · cases hc
  · intro r hr
    simp only [dropped] at hr
    split at hr <;> cases hr
  · have hdropped : g.dropped conn = f.dropped conn := by
      rw [dropped, dropped, (hg.connection conn rfl).session]
    rw [← hdropped]
    exact g.disconnect_eq_change conn

/-- Every event on a connection is local. -/
theorem locality (f : Fleet) (h : e.conn? = some conn) : ∃ d, f.IsLocal e conn d := by
  cases e with
  | connect => cases h; exact f.isLocal_connect conn _
  | message => cases h; exact f.isLocal_of_said rfl
  | frame conn' line now =>
      cases h
      cases hd : AgentMessage.decode line with
      | ok m =>
          have hm : (Event.frame conn line now).said? = some (conn, m, now) := by
            rw [Event.said?, hd]
            rfl
          exact f.isLocal_of_said hm
      | error cause => exact f.isLocal_malformed hd conn now
  | close => cases h; exact f.isLocal_close conn
  | save | createGroup | updateGroup | deleteGroup => cases h

end Fleet

end FleetControl
