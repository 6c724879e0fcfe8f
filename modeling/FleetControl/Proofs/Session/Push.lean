import FleetControl.Admin
import FleetControl.Proofs.Session.Regrouping
import FleetControl.Proofs.Session.Spoken

/-!
# Pushing configurations — what an agent is sent, from what it has said

What a session knows of its agent is the latest that was accepted on it (`Remembers`, by induction
on what it has learned): the attributes of the last description and the last hash.  The groups of a
run stay settled (`isSettled_of_run`), so the group that is resolved for a message is the one that
the store chooses at that time.
`config_pushed_iff` puts the two together: the reply to a message pushes the configuration of that
group unless the agent runs it already, the record of the agent names the group, and operators who
ask get the same one.
-/

namespace FleetControl.Fleet

variable {f f₀ : Fleet} {e : Event} {conn i : Bytes} {m : AgentMessage} {now : Instant}
  {ms : List AgentMessage} {s s' : Session} {registry : Registry}

/-! ### What an agent has said -/

/-- The latest that some messages say in a field. -/
def latest {α : Type} (field : AgentMessage → Option α) (ms : List AgentMessage) : Option α :=
  ms.reverse.findSome? field

theorem latest_concat {α : Type} (field : AgentMessage → Option α) (ms : List AgentMessage)
    (m : AgentMessage) : latest field (ms ++ [m]) = (field m).or (latest field ms) := by
  rw [latest, List.reverse_append, List.findSome?_append]
  simp [latest]

/-- The identifying attributes of the latest description in some messages. -/
def latestIdentifying (ms : List AgentMessage) : Attributes :=
  ((latest (·.description) ms).map (·.identifying)).getD ∅

theorem latestIdentifying_concat (ms : List AgentMessage) (m : AgentMessage) :
    latestIdentifying (ms ++ [m]) =
      (m.description.map (·.identifying)).getD (latestIdentifying ms) := by
  rw [latestIdentifying, latest_concat]
  cases m.description <;> rfl

/-- What a session knows of its agent is the latest that was accepted on it. -/
def Remembers (f : Fleet) (conn : Bytes) (ms : List AgentMessage) : Prop :=
  match f.sessions.get? conn with
  | none => ms = []
  | some s => s.identifying = latestIdentifying ms ∧ s.configHash = latest (·.configHash) ms

theorem remembers_of_session (h : f.sessions.get? conn = some s) :
    f.Remembers conn ms ↔
      s.identifying = latestIdentifying ms ∧ s.configHash = latest (·.configHash) ms := by
  simp only [Remembers, h]

/-- A session that learns from a message knows what the message says, and the rest as before. -/
theorem Learned.latest_eq (h : Learned s ms) :
    s.identifying = latestIdentifying ms ∧ s.configHash = latest (·.configHash) ms := by
  induction h with
  | new => exact ⟨rfl, rfl⟩
  | more _ _ h hs ih =>
      obtain ⟨hi, hh⟩ := ih
      refine ⟨?_, ?_⟩
      · rw [latestIdentifying_concat, ← hi]
        rfl
      · rw [latest_concat, ← hh]
        rfl

theorem Remembers.of_run (h : f₀.IsSetUp) (conn : Bytes) (es : List Event) :
    (f₀.run es).Remembers conn (f₀.spokenIn conn [] es) := by
  have hknows := knows_of_run h conn es
  rw [Knows] at hknows
  rw [Remembers]
  cases hs : (f₀.run es).sessions.get? conn with
  | none => rwa [hs] at hknows
  | some s =>
      rw [hs] at hknows
      exact hknows.latest_eq

/-! ### The groups of a run -/

theorem isSettled_of_run (h : f₀.IsSetUp) (es : List Event) : (f₀.run es).groups.IsSettled :=
  (isSound_of_run h es).toIsSettled

/-! ### What is pushed -/

/-- The hash by which an agent names a configuration. -/
def configHashOf (config : RemoteConfig) : Bytes := Hex.encode (Sha256.digest config.body)

/-- The configuration of a group is pushed unless the agent runs it already. -/
theorem configToPush_eq_some_iff {group : Option Group} {hash : Option Bytes} {p : PushedConfig} :
    configToPush group hash = some p ↔
      ∃ g config, group = some g ∧ g.remoteConfig = some config ∧
        hash ≠ some (configHashOf config) ∧
        p = ⟨config.body, config.contentType, configHashOf config⟩ := by
  cases group with
  | none => simp [configToPush]
  | some g =>
      cases hc : g.remoteConfig with
      | none => simp [configToPush, hc]
      | some config =>
          have hpush : configToPush (some g) hash = if hash == some (configHashOf config) then none
              else some ⟨config.body, config.contentType, configHashOf config⟩ := by
            simp only [configToPush, Option.bind_eq_bind, Option.bind_some, hc]
            rfl
          rw [hpush]
          constructor
          · intro h
            split at h
            · cases h
            · rename_i hh
              exact ⟨g, config, rfl, hc, fun e => hh (beq_iff_eq.mpr e), (Option.some.inj h).symm⟩
          · rintro ⟨_, _, ⟨⟩, hc', hh, rfl⟩
            obtain rfl := Option.some.inj (hc.symm.trans hc')
            rw [if_neg fun e => hh (beq_iff_eq.mp e)]

/-- A session that has served a message belongs to the group that the store chooses for the
attributes last said on it, and knows the hash last said on it. -/
theorem Serves.chooses {es : List Event} (hf : f₀.IsSetUp)
    (h : (f₀.run es).Serves e conn m now s s' registry) :
    (∀ g, (f₀.run es).groupOf (Session.learn s' m) = some g ↔
        (f₀.run es).groups.Chooses (latestIdentifying (f₀.spokenIn conn [] (es ++ [e]))) g) ∧
      (Session.learn s' m).identifying = latestIdentifying (f₀.spokenIn conn [] (es ++ [e])) ∧
      (Session.learn s' m).configHash =
        latest (·.configHash) (f₀.spokenIn conn [] (es ++ [e])) := by
  have hrun : f₀.run (es ++ [e]) = (f₀.run es).step e := by rw [run_append]; rfl
  have hsession : (f₀.run (es ++ [e])).sessions.get? conn = some (Session.learn s' m) := by
    rw [hrun, h.step_sessions, Table.get?_insert, if_pos rfl]
  obtain ⟨hi, hh⟩ := (remembers_of_session hsession).mp (Remembers.of_run hf conn (es ++ [e]))
  refine ⟨fun g => ?_, hi, hh⟩
  rw [groupOf, hi]
  exact (isSettled_of_run hf es).resolve_eq_some_iff

/-- Every message that is processed for an instance is answered with the configuration of the group
that the store chooses at that time for the attributes that the agent last said it has, unless the
hash that it last said is the configuration's.  The record of the agent names that group, and an
operator who asks for the group of these attributes is shown it. -/
theorem config_pushed_iff {es : List Event} (hf : f₀.IsSetUp)
    (hs : e.said? = some (conn, m, now)) (hp : (f₀.run es).processedFor e = some i) :
    let f := f₀.run es
    let ms := f₀.spokenIn conn [] (es ++ [e])
    ∃ (chosen : Option Group) (reply : Reply) (a : Agent),
      (∀ g, chosen = some g ↔ f.groups.Chooses (latestIdentifying ms) g) ∧
      f.reply? e = some reply ∧
      (∀ p, reply.remoteConfig = some p ↔ ∃ g config, chosen = some g ∧
        g.remoteConfig = some config ∧
        latest (·.configHash) ms ≠ some (configHashOf config) ∧
        p = ⟨config.body, config.contentType, configHashOf config⟩) ∧
      (f.step e).agents.find i = .ok a ∧ a.group = chosen.map (·.name) ∧
      (f.step e).resolveGroup (latestIdentifying ms) =
        match chosen with
        | some g => .success g.toJson
        | none => .ofFault (.notFound (utf8 "no agent group matches")) := by
  intro f ms
  obtain ⟨s, s', registry, h⟩ | ⟨hn, -⟩ := f.serves_or_idle hs
  · have hi : m.instanceId = i := Option.some.inj (h.processedFor.symm.trans hp)
    obtain ⟨hnamed, -⟩ := h.registered (Coherent.of_run hf es)
    -- the session has learnt of this message before its group is resolved
    obtain ⟨hchosen, hidentifying, hhash⟩ := h.chooses hf
    obtain ⟨a, ha⟩ := h.step_agents hnamed
    refine ⟨f.groupOf (Session.learn s' m), _, a, hchosen, reply?_of_said hs,
      fun p => ?_, ?_, ?_, ?_⟩
    · rw [h.received, serveInstance_remoteConfig, ← hhash]
      exact configToPush_eq_some_iff
    · rw [← hi]
      exact AgentStore.find_report ha
    · rw [(AgentStore.report_ok ha).1]
      rfl
    · rw [resolveGroup, h.step_groups, ← hidentifying]
      rfl
  · rw [hn] at hp
    cases hp

/-- Every agent belongs to this group. -/
def sampleGroup : Group := { name := utf8 "g", remoteConfig := some { body := [1] } }

/-- Instance 7 says nothing of its configuration and is sent that of the only group. -/
theorem config_pushed_to_sample :
    let es := [.createGroup sampleGroup, .connect [9] 6]
    ∃ reply, (sample.run es).reply? (sampleMessage [9] []) = some reply ∧
      reply.remoteConfig = some ⟨[1], utf8 "text/yaml", Hex.encode (Sha256.digest [1])⟩ := by
  intro es
  have hp : (sample.run es).processedFor (sampleMessage [9] []) = some [7] := by decide +kernel
  obtain ⟨chosen, reply, -, hchosen, hreply, hpushed, -⟩ :=
    config_pushed_iff sample_isFresh.isSetUp (e := sampleMessage [9] []) rfl hp
  have hsettled := isSettled_of_run sample_isFresh.isSetUp es
  have hgroup : chosen = some sampleGroup := (hchosen _).mpr
    (hsettled.resolve_eq_some_iff.mp (by decide +kernel))
  exact ⟨reply, hreply, (hpushed _).mpr ⟨sampleGroup, { body := [1] }, hgroup, rfl, nofun, rfl⟩⟩

end FleetControl.Fleet
