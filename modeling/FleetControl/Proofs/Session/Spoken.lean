import FleetControl.Proofs.Session.Coherence

/-!
# What an agent has said — the messages accepted on a session

`spokenIn` collects the messages that are accepted on the session of a connection along a run, from
its opening on: a close forgets them, and so they begin with nothing whenever the connection opens.

A session is what these messages make of a new one (`Learned`, `knows_of_run`): it learned from one
after the other, each was no duplicate when it came, and its state and its instance are all that is
set in between.  What is kept as a session learns from one more message thus holds of every session,
by induction on `Learned`.
-/

namespace FleetControl.Fleet

variable {f f₀ : Fleet} {e : Event} {conn : Bytes} {m : AgentMessage} {now : Instant}
  {ms : List AgentMessage} {s s' : Session} {registry : Registry}

/-! ### The messages of a session -/

/-- The messages accepted on the session of a connection after an event, given those before it; a
session that is closed leaves none. -/
def spoken (f : Fleet) (conn : Bytes) (before : List AgentMessage) (e : Event) :
    List AgentMessage :=
  match e with
  | .close c => if c = conn then [] else before
  | _ => match f.accepted e with
    | some (c, m) => if c = conn then before ++ [m] else before
    | none => before

/-- The messages accepted on the session of a connection after a run, given those before it. -/
def spokenIn (f : Fleet) (conn : Bytes) (before : List AgentMessage) :
    List Event → List AgentMessage
  | [] => before
  | e :: es => (f.step e).spokenIn conn (f.spoken conn before e) es

theorem spoken_of_accepted_none (ha : f.accepted e = none) (hc : e ≠ .close conn) :
    f.spoken conn ms e = ms := by
  cases e with
  | close c =>
      have hne : c ≠ conn := fun h => hc (congrArg Event.close h)
      exact if_neg hne
  | _ => simp only [spoken, ha]

theorem spoken_of_accepted {c : Bytes} (ha : f.accepted e = some (c, m)) :
    f.spoken conn ms e = if c = conn then ms ++ [m] else ms := by
  cases e with
  | close => simp [accepted, Event.said?] at ha
  | _ => simp only [spoken, ha]

theorem spokenIn_append (f : Fleet) (conn : Bytes) (ms : List AgentMessage) (es es' : List Event) :
    f.spokenIn conn ms (es ++ es') = (f.run es).spokenIn conn (f.spokenIn conn ms es) es' := by
  induction es generalizing f ms with
  | nil => rfl
  | cons e es ih => exact ih _ _

/-- As long as a connection is not closed, what was said on it stays said. -/
theorem prefix_spoken (f : Fleet) (ms : List AgentMessage) (hc : e ≠ .close conn) :
    ms <+: f.spoken conn ms e := by
  cases ha : f.accepted e with
  | some a =>
      obtain ⟨c, m⟩ := a
      rw [spoken_of_accepted ha]
      split
      · exact List.prefix_append ms [m]
      · exact List.prefix_refl ms
  | none => exact ⟨[], (List.append_nil ms).trans (spoken_of_accepted_none ha hc).symm⟩

theorem prefix_spokenIn {es : List Event} (f : Fleet) (ms : List AgentMessage)
    (hc : Event.close conn ∉ es) : ms <+: f.spokenIn conn ms es := by
  induction es generalizing f ms with
  | nil => exact List.prefix_refl ms
  | cons e es ih =>
      have he : e ≠ .close conn := (List.ne_of_not_mem_cons hc).symm
      exact (f.prefix_spoken ms he).trans (ih _ _ (List.not_mem_of_not_mem_cons hc))

/-! ### What a session has become -/

/-- What a new session becomes as it learns from messages that are no duplicates; its state and its
instance may be set at any time. -/
inductive Learned : Session → List AgentMessage → Prop where
  | new : Learned {} []
  | more {s : Session} {ms : List AgentMessage} {m : AgentMessage} (state : SessionState)
      (i : Option Bytes) (h : Learned s ms)
      (hs : Sequence.of s.lastSequence m.sequenceNum ≠ .duplicate) :
      Learned (Session.learn { s with state, instanceId := i } m) (ms ++ [m])

/-- The session of a connection is what these messages made of it; without a session there are
none. -/
def Knows (f : Fleet) (conn : Bytes) (ms : List AgentMessage) : Prop :=
  match f.sessions.get? conn with
  | none => ms = []
  | some s => Learned s ms

theorem knows_of_session (h : f.sessions.get? conn = some s) :
    f.Knows conn ms ↔ Learned s ms := by
  simp only [Knows, h]

theorem knows_of_no_session (h : f.sessions.get? conn = none) :
    f.Knows conn ms ↔ ms = [] := by
  simp only [Knows, h]

theorem Knows.congr {g : Fleet} (h : f.Knows conn ms)
    (hs : g.sessions.get? conn = f.sessions.get? conn) : g.Knows conn ms := by
  rwa [Knows, hs]

/-- Being bound to an instance changes nothing else in a session. -/
theorem Carries.eq_with (h : f.Carries conn s m s' registry) :
    ∃ state i, s' = { s with state, instanceId := i } := by
  cases h with
  | before => exact ⟨_, _, rfl⟩
  | binding => exact ⟨_, _, rfl⟩

/-- A message that is accepted came to a session, is no duplicate and is not answered with an
error. -/
theorem said_of_accepted (ha : f.accepted e = some (conn, m)) :
    ∃ now s, e.said? = some (conn, m, now) ∧ f.sessions.get? conn = some s ∧
      Sequence.of s.lastSequence m.sequenceNum ≠ .duplicate ∧
      (f.receive conn m now).1.error = none := by
  rw [accepted] at ha
  split at ha
  · cases ha
  rename_i hsaid
  split at ha
  · cases ha
  rename_i hs
  split at ha
  · cases ha
  rename_i hfresh
  split at ha
  · cases ha
  rename_i herror
  cases ha
  refine ⟨_, _, hsaid, hs, hfresh, ?_⟩
  simpa [reply?_of_said hsaid] using herror

/-- A message that is accepted on one session is nothing to the others. -/
theorem Knows.accept {g : Fleet} {c : Bytes} (h : f.Knows conn ms) (state : SessionState)
    (i : Option Bytes) (ha : f.accepted e = some (c, m)) (hs : f.sessions.get? c = some s)
    (hg : g.sessions = f.sessions.insert c (Session.learn { s with state, instanceId := i } m)) :
    g.Knows conn (f.spoken conn ms e) := by
  rw [spoken_of_accepted ha]
  by_cases hc : c = conn
  · subst hc
    rw [if_pos rfl]
    obtain ⟨now, s, -, hs', hfresh, -⟩ := said_of_accepted ha
    cases hs.symm.trans hs'
    refine (knows_of_session (by rw [hg, Table.get?_insert, if_pos rfl])).mpr ?_
    exact .more state i ((knows_of_session hs).mp h) hfresh
  · rw [if_neg hc]
    exact h.congr (by rw [hg, Table.get?_insert, if_neg (Ne.symm hc)])

theorem Knows.opens (h : f.Knows conn ms) (hf : f.Coherent) {c : Bytes}
    (hr : f.registry.register c now = .ok registry) : (f.keep c {} registry).Knows conn ms := by
  by_cases hc : conn = c
  · subst hc
    have hnone : f.sessions.get? conn = none := by
      have hfree := (Registry.binding_register hr).1
      rw [hf.registered] at hfree
      exact Option.map_eq_none_iff.mp hfree
    obtain rfl := (knows_of_no_session hnone).mp h
    refine (knows_of_session (s := {}) ?_).mpr .new
    rw [keep, Table.get?_insert, if_pos rfl]
  · exact h.congr (by rw [keep, Table.get?_insert, if_neg hc])

theorem Knows.closes (h : f.Knows conn ms) (c : Bytes) :
    (f.disconnect c).Knows conn (f.spoken conn ms (.close c)) := by
  rw [spoken]
  by_cases hc : conn = c
  · rw [if_pos hc.symm]
    exact (knows_of_no_session (by rw [get?_disconnect_sessions, if_pos hc])).mpr rfl
  · rw [if_neg (Ne.symm hc)]
    exact h.congr (by rw [get?_disconnect_sessions, if_neg hc])

theorem Knows.step (h : f.Knows conn ms) (hf : f.Coherent) (e : Event) :
    (f.step e).Knows conn (f.spoken conn ms e) := by
  cases f.outcome e with
  | idle ha hc hstep | heard ha hc hstep | regrouped ha hc _ hstep =>
      rw [spoken_of_accepted_none ha (hc conn), hstep]
      exact h.congr rfl
  | @undescribed _ _ _ s ha hs _ _ hstep =>
      rw [hstep]
      exact h.accept s.state s.instanceId ha hs rfl
  | served hserves =>
      obtain ⟨state, i, rfl⟩ := hserves.carries.eq_with
      exact h.accept state i hserves.accepted hserves.session hserves.step_sessions
  | opened he hr hstep =>
      subst he
      rw [hstep]
      exact h.opens hf hr
  | closed he hstep =>
      subst he
      rw [hstep]
      exact h.closes _
  | saved he hstep =>
      subst he
      rw [hstep]
      exact h.congr rfl

theorem Knows.run {es : List Event} (h : f.Knows conn ms) (hf : f.Coherent) :
    (f.run es).Knows conn (f.spokenIn conn ms es) := by
  induction es generalizing f ms with
  | nil => exact h
  | cons e es ih => exact ih (h.step hf e) (hf.step e)

theorem knows_of_run (h : f₀.IsSetUp) (conn : Bytes) (es : List Event) :
    (f₀.run es).Knows conn (f₀.spokenIn conn [] es) := by
  refine Knows.run ?_ (.of_isSetUp h)
  obtain ⟨cursor, plan, store, hf⟩ := h
  obtain ⟨-, hs, -⟩ := setup_parts hf
  exact (knows_of_no_session (by rw [hs]; rfl)).mpr rfl

end FleetControl.Fleet
