import FleetControl.Proofs.Session.Coherence

/-!
# Presence — which agents are shown as connected

Several connections can carry one instance, and the record of its agent names one of them: the one
that last reported, as long as that one still carries the instance (`Shows`, `Shows.run`).  So an
agent is shown as connected exactly as long as the connection that reported last is open
(`isConnected_iff_last_reporter_open`).  A connection that carries the instance as well and reported
before is not looked at: when the later one closes, the agent is shown as gone.
-/

namespace FleetControl.Fleet

variable {f f₀ : Fleet} {e : Event} {conn i : Bytes} {last : Option Bytes}

/-- The connection whose message an event processes for an instance. -/
def reporter (f : Fleet) (i : Bytes) (e : Event) : Option Bytes :=
  if f.processedFor e = some i then (f.accepted e).map (·.1) else none

/-- The connection whose message was the last along a run to be processed for an instance. -/
def lastReporter (f : Fleet) (i : Bytes) : List Event → Option Bytes
  | [] => none
  | e :: es => ((f.step e).lastReporter i es).or (f.reporter i e)

theorem reporter_of_not_accepted (h : f.accepted e = none) : f.reporter i e = none := by
  rw [reporter, h, Option.map_none, ite_self]

/-- The record of an instance names the connection that last reported, as long as that carries
the instance. -/
def Shows (f : Fleet) (i : Bytes) (last : Option Bytes) : Prop :=
  f.agents.carrier i =
    last.map fun c => if f.binding c = some (some i) then some c else none

theorem Shows.of_isSetUp (h : f.IsSetUp) : f.Shows i none := by
  obtain ⟨cursor, plan, store, hf⟩ := h
  obtain ⟨-, -, -, -, -, ha⟩ := setup_parts hf
  rw [Shows, AgentStore.carrier, ha, Option.map_none, Option.map_none]

theorem Shows.congr {g : Fleet} (h : f.Shows i last)
    (hb : ∀ {c : Bytes}, g.binding c = some (some i) ↔ f.binding c = some (some i))
    (hc : g.agents.carrier i = f.agents.carrier i) : g.Shows i last := by
  rw [Shows, hc, h]
  simp only [hb]

theorem Shows.disconnect (h : f.Shows i last) (hf : f.Coherent) (conn : Bytes) :
    (f.disconnect conn).Shows i last := by
  rw [Shows, hf.carrier_disconnect, h, Option.map_map]
  congr 1
  funext c
  rw [binding_disconnect, Function.comp_apply]
  by_cases hc : c = conn
  · subst hc
    rw [Function.update_self]
    split <;> simp
  · rw [Function.update_of_ne hc]
    split
    · rw [if_neg (by simpa using hc)]
    · rfl

/-- A message that is served makes its connection the one that is shown, for its instance; other
instances are shown as before. -/
theorem Shows.serves {m : AgentMessage} {now : Instant} {s s' : Session} {registry : Registry}
    (h : f.Shows i last) (hf : f.Coherent) (hs : f.Serves e conn m now s s' registry) :
    (f.step e).Shows i ((f.reporter i e).or last) := by
  obtain ⟨hnamed, -⟩ := hs.registered hf
  by_cases hi : m.instanceId = i
  · subst hi
    have hr : f.reporter m.instanceId e = some conn := by
      rw [reporter, if_pos hs.processedFor, hs.accepted, Option.map_some]
    rw [hr, Option.some_or, Shows, hs.step_carrier hnamed, hs.step_binding, Option.map_some,
      Function.update_self, Function.update_self, if_pos rfl]
  · have hr : f.reporter i e = none := by
      rw [reporter, hs.processedFor, if_neg fun h => hi (Option.some.inj h)]
    rw [hr, Option.none_or]
    refine h.congr (fun {c} => ?_) ?_
    · rw [hs.step_binding, Function.update_apply]
      split
      · rename_i hc
        rw [hc]
        -- the connection carries the instance of the message, and before that it carried none
        rcases hs.binding with hn | hm
        · rw [hn]; simp [hi]
        · rw [hm]
      · rfl
    · rw [hs.step_carrier hnamed, Function.update_of_ne (Ne.symm hi)]

theorem Shows.opens {now : Instant} {registry : Registry} (h : f.Shows i last) (hf : f.Coherent)
    (hr : f.registry.register conn now = .ok registry) : (f.keep conn {} registry).Shows i last := by
  refine h.congr (fun {c} => ?_) rfl
  rw [binding_keep, Function.update_apply]
  split
  · rename_i hc
    rw [hc, ← hf.registered, (Registry.binding_register hr).1]
    constructor <;> intro h <;> cases h
  · rfl

theorem Shows.step (h : f.Shows i last) (hf : f.Coherent) (e : Event) :
    (f.step e).Shows i ((f.reporter i e).or last) := by
  cases f.outcome e with
  | idle ha _ hstep | heard ha _ hstep | regrouped ha _ _ hstep =>
      rw [reporter_of_not_accepted ha, Option.none_or, hstep]
      exact h.congr Iff.rfl rfl
  | undescribed ha hs hi _ hstep =>
      have hn : f.reporter i e = none := by
        rw [reporter, processedFor_of_undescribed ha hi hstep, if_neg (Option.some_ne_none i).symm]
      rw [hn, Option.none_or, hstep]
      exact h.congr (by rw [binding_learn hs]) rfl
  | served hs => exact h.serves hf hs
  | opened he hr hstep =>
      have ha : f.accepted e = none := accepted_of_not_said (he ▸ rfl)
      rw [reporter_of_not_accepted ha, Option.none_or, hstep]
      exact h.opens hf hr
  | closed he hstep =>
      have ha : f.accepted e = none := accepted_of_not_said (he ▸ rfl)
      rw [reporter_of_not_accepted ha, Option.none_or, hstep]
      exact h.disconnect hf _
  | saved he hstep =>
      have ha : f.accepted e = none := accepted_of_not_said (he ▸ rfl)
      rw [reporter_of_not_accepted ha, Option.none_or, hstep]
      exact h.congr Iff.rfl rfl

theorem Shows.run {es : List Event} (h : f.Shows i last) (hf : f.Coherent) :
    (f.run es).Shows i ((f.lastReporter i es).or last) := by
  induction es generalizing f last with
  | nil => exact h
  | cons e es ih =>
      rw [run_cons, lastReporter, Option.or_assoc]
      exact ih (h.step hf e) (hf.step e)

theorem Shows.of_run (h : f₀.IsSetUp) (i : Bytes) (es : List Event) :
    (f₀.run es).Shows i (f₀.lastReporter i es) := by
  have hrun : (f₀.run es).Shows i ((f₀.lastReporter i es).or none) :=
    (of_isSetUp h).run (.of_isSetUp h)
  rwa [Option.or_none] at hrun

/-- An agent whose instance some connection carries has a record, which names the connection that
last reported for it as long as that one is open, and none afterwards. -/
theorem isConnected_iff_last_reporter_open {es : List Event} (hf : f₀.IsSetUp)
    (hc : (f₀.run es).binding conn = some (some i)) :
    ∃ a last, (f₀.run es).agents.find i = .ok a ∧ f₀.lastReporter i es = some last ∧
      (a.isConnected = true ↔ (f₀.run es).binding last = some (some i)) ∧
      ∀ c, a.connection = some c → c = last := by
  have hshows := Shows.of_run hf i es
  obtain ⟨c, hcarrier⟩ := (Coherent.of_run hf es).recorded hc
  rw [Shows, hcarrier] at hshows
  obtain ⟨last, hlast, hshown⟩ := Option.map_eq_some_iff.mp hshows.symm
  obtain ⟨a, ha, rfl⟩ := AgentStore.find_of_carrier hcarrier
  refine ⟨a, last, ha, hlast, ?_, fun c hac => ?_⟩
  · rw [Agent.isConnected, ← hshown]
    split <;> simp [*]
  · rw [hac] at hshown
    split at hshown
    · exact (Option.some.inj hshown).symm
    · cases hshown

/-- Instance 7 is carried by two connections, and the one that reported first closes. -/
theorem connected_while_last_reporter_open :
    let es := [.connect [8] 6, .connect [9] 6, sampleMessage [8] [], sampleMessage [9] [],
      .close [8]]
    ∃ a, (sample.run es).agents.find [7] = .ok a ∧ a.isConnected = true := by
  intro es
  have hc : (sample.run es).binding [9] = some (some [7]) := by decide +kernel
  have hlast : sample.lastReporter [7] es = some [9] := by decide +kernel
  obtain ⟨a, last, ha, hl, hconnected, -⟩ :=
    isConnected_iff_last_reporter_open sample_isFresh.isSetUp hc
  obtain rfl : [9] = last := Option.some.inj (hlast.symm.trans hl)
  exact ⟨a, ha, hconnected.mpr hc⟩

/-- Instance 7 is carried by two connections, and the one that reported last closes: the other still
carries the instance, but the agent is shown as gone. -/
theorem shown_as_gone_while_carried :
    let es := [.connect [8] 6, .connect [9] 6, sampleMessage [8] [], sampleMessage [9] [],
      .close [9]]
    (sample.run es).sessionState [8] = .ok .identified ∧
      (sample.run es).binding [8] = some (some [7]) ∧
      ((sample.run es).agents.find [7]).toOption.map (·.isConnected) = some false := by
  decide +kernel

end FleetControl.Fleet
