import FleetControl.Admin
import FleetControl.Proofs.Connection.Liveness
import FleetControl.Proofs.Session.Push

/-!
# The status of a group — counts of the agents that it selects

The status of a group is counted in one pass over the agents that its selector selects, each by what
its record and the registry tell (`Counts`, preserved by one more agent in `Counts.add`).  The pass
has a branch for an agent whose connection is gone; while the stores tell the same there is no such
agent (`Coherent.get?_of_connection`), so connected agents are healthy or unhealthy and the rest have
no connection.

Whether an agent counts as healthy is what the registry shows of its connection.  That is whether it
was heard from less than the threshold ago if the threshold's nanoseconds fit the word
(`group_status_counts`), and not otherwise (`just_heard_from_counts_as_unhealthy`).
-/

namespace FleetControl

/-- An agent is selected if it has every attribute that the selector asks for. -/
def Selector.Selects (s : Selector) (d : Description) : Prop :=
  (∀ key v, s.identifying.get? key = some v → d.identifying.get? key = some v) ∧
    ∀ key v, s.nonIdentifying.get? key = some v → d.nonIdentifying.get? key = some v

theorem Selector.accepts_iff {s : Selector} {d : Description} :
    s.accepts d = true ↔ s.Selects d := by
  rw [accepts, Bool.and_eq_true, Attributes.includes_iff, Attributes.includes_iff, Selects]

namespace Registry

/-- Whether a connection is shown as alive at a time. -/
def showsAlive (r : Registry) (now : Instant) (conn : Bytes) : Bool :=
  (r.isAlive conn now).toOption = some true

/-- Whether a connection was heard from less than the threshold ago, in whole nanoseconds. -/
def isWithin (r : Registry) (now : Instant) (conn : Bytes) : Bool :=
  (r.entries.get? conn).any fun e => e.IsAliveAt r.livenessMs now

end Registry

/-! ### Counting -/

namespace GroupStatus

variable {s : GroupStatus} {members : List Agent} {alive alive' : Bytes → Bool} {a : Agent}
  {registry : Registry} {now : Instant}

/-- The numbers of some agents, where it is given which connections are alive. -/
structure Counts (s : GroupStatus) (members : List Agent) (alive : Bytes → Bool) : Prop where
  agents : s.agents = members.length
  healthy : s.healthy = members.countP fun a => a.connection.any alive
  unhealthy : s.unhealthy = members.countP fun a => a.connection.any fun conn => !alive conn
  notConnected : s.notConnected = members.countP fun a => a.connection.isNone
  connected : s.connected = s.healthy + s.unhealthy
  all : s.agents = s.connected + s.notConnected

theorem counts_nil (alive : Bytes → Bool) : ({} : GroupStatus).Counts [] alive :=
  ⟨rfl, rfl, rfl, rfl, rfl, rfl⟩

/-- The health of an agent whose connection is registered. -/
theorem health_eq (h : ∀ conn, a.connection = some conn →
    registry.isAlive conn now = .ok (alive conn)) :
    a.health registry now =
      match a.connection with
      | none => .notConnected
      | some conn => if alive conn then .healthy else .unhealthy := by
  rw [Agent.health]
  cases hc : a.connection with
  | none => rfl
  | some conn =>
      simp only [h conn hc]
      cases alive conn <;> rfl

theorem Counts.add (hs : s.Counts members alive) (h : ∀ conn, a.connection = some conn →
    registry.isAlive conn now = .ok (alive conn)) :
    (s.add (a.health registry now)).Counts (members ++ [a]) alive := by
  obtain ⟨hagents, hhealthy, hunhealthy, hnotConnected, hconnected, hall⟩ := hs
  rw [health_eq h]
  cases hc : a.connection with
  | none =>
      constructor <;> simp [GroupStatus.add, *]
      omega
  | some conn =>
      cases ha : alive conn with
      | true => constructor <;> simp [GroupStatus.add, *] <;> omega
      | false => constructor <;> simp [GroupStatus.add, *] <;> omega

theorem counts_ofAgents (h : ∀ a ∈ members, ∀ conn, a.connection = some conn →
    registry.isAlive conn now = .ok (alive conn)) :
    (ofAgents members registry now).Counts members alive := by
  induction members using List.reverseRecOn with
  | nil => exact counts_nil alive
  | append_singleton members a ih =>
      rw [ofAgents, List.foldl_append]
      exact (ih fun b hb => h b (List.mem_append_left _ hb)).add
        (h a (List.mem_append_right _ (List.mem_singleton_self a)))

theorem countP_connection_congr {p q : Bytes → Bool}
    (h : ∀ a ∈ members, ∀ conn, a.connection = some conn → p conn = q conn) :
    (members.countP fun a => a.connection.any p) = members.countP fun a => a.connection.any q := by
  refine List.countP_congr fun a ha => ?_
  cases hc : a.connection with
  | none => rfl
  | some conn => rw [Option.any_some, Option.any_some, h a ha conn hc]

/-- Only the connections of the agents are looked at. -/
theorem Counts.congr (hs : s.Counts members alive)
    (h : ∀ a ∈ members, ∀ conn, a.connection = some conn → alive conn = alive' conn) :
    s.Counts members alive' where
  agents := hs.agents
  healthy := hs.healthy.trans (countP_connection_congr h)
  unhealthy := hs.unhealthy.trans
    (countP_connection_congr fun a ha conn hc => by rw [h a ha conn hc])
  notConnected := hs.notConnected
  connected := hs.connected
  all := hs.all

end GroupStatus

namespace Fleet

variable {f f₀ : Fleet} {g : Group} {name i conn : Bytes} {a : Agent} {now : Instant}

/-! ### The agents of a group -/

/-- The connection that a record names is registered. -/
theorem Coherent.get?_of_connection (hf : f.Coherent) (ha : f.agents.find i = .ok a)
    (hc : a.connection = some conn) : ∃ e, f.registry.entries.get? conn = some e := by
  have hcarrier : f.agents.carrier i = some (some conn) := by
    rw [AgentStore.carrier_of_find ha, hc]
  have hbinding : f.registry.binding conn = some (some i) := by
    rw [hf.registered, hf.carried hcarrier]
  obtain ⟨e, he, -⟩ := Option.map_eq_some_iff.mp hbinding
  exact ⟨e, he⟩

/-- The agents that a selector selects, in the order of the store. -/
def selected (f : Fleet) (selector : Selector) : List Agent :=
  f.agents.agents.toTable.values.filter fun a => selector.accepts a.description

theorem listSelected_all (f : Fleet) (selector : Selector) :
    f.agents.listSelected selector {} = .ok { items := f.selected selector } :=
  paginate_all ..

theorem mem_selected_iff (hf : f.Coherent) {selector : Selector} :
    a ∈ f.selected selector ↔
      f.agents.find a.instanceId = .ok a ∧ selector.Selects a.description := by
  rw [selected, List.mem_filter, Selector.accepts_iff, Table.mem_values_iff,
    AgentStore.find_eq_ok_iff]
  refine and_congr_left fun _ => ⟨fun ⟨i, hi⟩ => ?_, fun h => ⟨_, by rwa [Sharded.get?_toTable]⟩⟩
  rw [Sharded.get?_toTable] at hi
  rwa [hf.keyed i a hi]

theorem selected_pairwise (hf : f.Coherent) (selector : Selector) :
    (f.selected selector).Pairwise fun a b => a.instanceId < b.instanceId := by
  refine List.Pairwise.filter _ (Table.values_pairwise fun i a ha => ?_)
  rw [Sharded.get?_toTable] at ha
  exact hf.keyed i a ha

/-! ### What is answered -/

theorem groupStatus_eq (f : Fleet) (g : Group) (now : Instant) :
    f.groupStatus g now = .ok (.ofAgents (f.selected g.selector) f.registry now) := by
  rw [groupStatus, listSelected_all]
  rfl

theorem findGroup_of_find (hg : f.groups.find name = .ok g) : f.findGroup name = .ok g := by
  rw [findGroup, hg]
  rfl

/-- What is shown of a group is what is written of it, and its status beside that. -/
theorem getGroup_of_find (hg : f.groups.find name = .ok g) (now : Instant) :
    f.getGroup name now = .success (.object (g.members ++ [(utf8 "status",
      (GroupStatus.ofAgents (f.selected g.selector) f.registry now).toJson)])) := by
  rw [getGroup, findGroup_of_find hg, AdminResponse.ofResult, groupStatus_eq]
  rfl

/-- After every run and at every time, the status of a group counts the agents that have all
attributes of its selector, which are the ones that are listed: those without a connection, and of
those with one the ones that are shown as alive and the others.  The connection of every record is
registered.  If the nanoseconds of the threshold fit the word and no time is from before the epoch,
an agent is healthy exactly if its connection was heard from less than the threshold ago. -/
theorem group_status_counts (hf : f₀.IsSetUp) (es : List Event)
    (hg : (f₀.run es).groups.find name = .ok g) (now : Instant) :
    let f := f₀.run es
    ∃ (members : List Agent) (status : GroupStatus),
      (members.Pairwise fun a b => a.instanceId < b.instanceId) ∧
      (∀ a, a ∈ members ↔
        f.agents.find a.instanceId = .ok a ∧ g.selector.Selects a.description) ∧
      f.listAgentsByGroup name {} = .success (Page.toJson Agent.toJson { items := members }) ∧
      f.groupStatus g now = .ok status ∧
      f.getGroup name now = .success (.object (g.members ++ [(utf8 "status", status.toJson)])) ∧
      status.Counts members (f.registry.showsAlive now) ∧
      (∀ i a conn, f.agents.find i = .ok a → a.connection = some conn →
        ∃ e alive, f.registry.entries.get? conn = some e ∧
          f.registry.isAlive conn now = .ok alive) ∧
      (0 < f.registry.livenessMs → f.registry.livenessMs ≤ Settings.longestLivenessMs →
        0 ≤ now → (∀ conn e, f.registry.entries.get? conn = some e → 0 ≤ e.lastHeard) →
        status.Counts members (f.registry.isWithin now)) := by
  intro f
  have hcoherent : f.Coherent := Coherent.of_run hf es
  have hregistered : ∀ i a conn, f.agents.find i = .ok a → a.connection = some conn →
      ∃ e, f.registry.entries.get? conn = some e ∧
        f.registry.isAlive conn now = .ok (f.registry.view conn e now).isAlive := by
    intro i a conn ha hc
    obtain ⟨e, he⟩ := hcoherent.get?_of_connection ha hc
    exact ⟨e, he, by rw [Registry.isAlive, Registry.find, he]; rfl⟩
  have hmember : ∀ a ∈ f.selected g.selector, f.agents.find a.instanceId = .ok a := fun a ha =>
    ((mem_selected_iff hcoherent).mp ha).1
  -- the registry answers for the connection of every record, so no agent is left uncounted
  have hcounts : (GroupStatus.ofAgents (f.selected g.selector) f.registry now).Counts
      (f.selected g.selector) (f.registry.showsAlive now) := by
    refine GroupStatus.counts_ofAgents fun a ha conn hc => ?_
    obtain ⟨e, -, halive⟩ := hregistered _ a conn (hmember a ha) hc
    rw [Registry.showsAlive, halive]
    simp [Except.toOption]
  refine ⟨f.selected g.selector, _, selected_pairwise hcoherent _,
    fun a => mem_selected_iff hcoherent, ?_, f.groupStatus_eq g now, getGroup_of_find hg now,
    hcounts, fun i a conn ha hc => ?_, fun h₀ hle hnow hlast => ?_⟩
  · rw [listAgentsByGroup, findGroup_of_find hg, AdminResponse.ofResult, listAgentsBySelector,
      listSelected_all]
    rfl
  · obtain ⟨e, he, halive⟩ := hregistered i a conn ha hc
    exact ⟨e, _, he, halive⟩
  · refine hcounts.congr fun a ha conn hc => ?_
    obtain ⟨e, he, -⟩ := hregistered _ a conn (hmember a ha) hc
    obtain ⟨-, halive, -⟩ :=
      Registry.showsExactly_of_le h₀ hle conn e now he (hlast conn e he) hnow
    rw [Registry.showsAlive, Registry.isWithin, halive, he]
    simp [Except.toOption]

/-- The only agent was heard from as its group is asked for. -/
theorem status_of_sample_group :
    let f := sample.run [.createGroup sampleGroup, .connect [9] 6, sampleMessage [9] []]
    ∃ members, f.groupStatus sampleGroup 8 = .ok ⟨1, 1, 1, 0, 0⟩ ∧
      (⟨1, 1, 1, 0, 0⟩ : GroupStatus).Counts members (f.registry.isWithin 8) := by
  intro f
  have hg : f.groups.find (utf8 "g") = .ok sampleGroup := by decide +kernel
  obtain ⟨members, status, -, -, -, hstatus, -, -, -, hwithin⟩ :=
    group_status_counts sample_isFresh.isSetUp _ hg 8
  have hnumbers : f.groupStatus sampleGroup 8 = .ok ⟨1, 1, 1, 0, 0⟩ := by decide +kernel
  rw [hstatus] at hnumbers
  cases hnumbers
  have hlast : f.registry.entries.toTable.toList.all (fun e => 0 ≤ e.2.lastHeard) = true := by
    decide +kernel
  refine ⟨members, hstatus, hwithin (by decide +kernel) (by decide +kernel) (by decide)
    fun conn e he => ?_⟩
  rw [← Sharded.get?_toTable] at he
  have hheard := List.all_eq_true.mp hlast (conn, e) (Table.mem_toList_iff.mpr he)
  exact of_decide_eq_true hheard

/-- With a threshold of about 292 years, which is accepted, the only agent was heard from as its
group is asked for, and counts as unhealthy. -/
theorem just_heard_from_counts_as_unhealthy :
    let f₀ := { sample with registry := sample.registry.withLiveness 9223372036855 }
    let f := f₀.run [.createGroup sampleGroup, .connect [9] 6, sampleMessage [9] []]
    (∃ text s, Settings.parse text = .ok s ∧ s.livenessMs = f.registry.livenessMs) ∧
      f₀.IsSetUp ∧
      f.groups.find (utf8 "g") = .ok sampleGroup ∧
      f.groupStatus sampleGroup 8 = .ok ⟨1, 1, 0, 1, 0⟩ ∧
      (f.agents.find [7]).toOption.map (·.connection) = some (some [9]) ∧
      f.registry.isWithin 8 [9] = true := by
  intro f₀ f
  have haccepted : Settings.parse (utf8 "\x7b\"livenessThresholdMs\":9223372036855\x7d") =
      .ok { livenessMs := 9223372036855 } := rfl
  have hsetUp : f₀.IsSetUp :=
    ⟨.plain, { livenessMs := 9223372036855, shards := 1, perReply := 1 }, f₀.store, rfl⟩
  have hlivenessMs : (9223372036855 : Int64) = f.registry.livenessMs := by decide +kernel
  exact ⟨⟨_, _, haccepted, hlivenessMs⟩, hsetUp,
    by decide +kernel, by decide +kernel, by decide +kernel, by decide +kernel⟩

end Fleet

end FleetControl
