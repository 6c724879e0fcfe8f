import FleetControl.Proofs.Session.Coherence

/-!
# Refusals — input that is not accepted

Input is rejected for one of four reasons, which `Rejects` lists, and for no other
(`error_iff_rejects`): it holds no message, its connection is not open, the connection carries
another instance, or the registry does not bind it.  It is a repeat if its sequence number is not
past the last one of the session (`IsRepeat`); a repeat is not looked at any further, so that a
message for another instance is no error if it is one.

Neither leaves anything behind but that its connection was heard from, and nothing at all if the
connection is not open; and the answer shows nothing but the instance id that the input named itself
(`refused_input_only_heard`).
-/

namespace FleetControl

/-- The connection that an event brings input on, and when. -/
def Event.input? : Event → Option (Bytes × Instant)
  | .message conn _ now => some (conn, now)
  | .frame conn _ now => some (conn, now)
  | _ => none

/-- The instance that input names; nothing if it holds no message. -/
def Event.named (e : Event) : Bytes := (e.said?.map (·.2.1.instanceId)).getD []

theorem Event.input?_of_said {e : Event} {conn : Bytes} {m : AgentMessage} {now : Instant}
    (h : e.said? = some (conn, m, now)) : e.input? = some (conn, now) := by
  obtain rfl | ⟨line, rfl, -⟩ := said_cases h <;> rfl

namespace Fleet

variable {f f₀ : Fleet} {e : Event} {conn : Bytes} {m : AgentMessage} {now : Instant} {s : Session}

/-- The event is answered with an error. -/
def IsRejected (f : Fleet) (e : Event) : Prop := ∃ r, f.reply? e = some r ∧ r.error ≠ none

/-- The event brings a message whose sequence number is not past the last one of its session. -/
def IsRepeat (f : Fleet) (e : Event) : Prop :=
  ∃ conn m now s last next, e.said? = some (conn, m, now) ∧ f.sessions.get? conn = some s ∧
    s.lastSequence = some last ∧ m.sequenceNum = some next ∧ next ≤ last

/-- Why input is answered with an error. -/
inductive Rejects (f : Fleet) (e : Event) : Prop where
  | malformed {conn line : Bytes} {now : Instant} {cause : FrameRefusal}
      (he : e = .frame conn line now) (hd : AgentMessage.decode line = .error cause)
  | unknown {conn : Bytes} {m : AgentMessage} {now : Instant} (hm : e.said? = some (conn, m, now))
      (h : ¬ f.IsOpen conn)
  | elsewhere {conn : Bytes} {m : AgentMessage} {now : Instant} {s : Session}
      (hm : e.said? = some (conn, m, now)) (h : f.sessions.get? conn = some s)
      (hs : Sequence.of s.lastSequence m.sequenceNum ≠ .duplicate)
      (hi : s.state = .identified) (hne : s.instanceId ≠ some m.instanceId)
  | unbound {conn : Bytes} {m : AgentMessage} {now : Instant} {s : Session}
      {cause : Registry.Refusal}
      (hm : e.said? = some (conn, m, now)) (h : f.sessions.get? conn = some s)
      (hs : Sequence.of s.lastSequence m.sequenceNum ≠ .duplicate)
      (hi : s.state = .connected) (hd : m.description ≠ none)
      (hb : (f.heard conn now).registry.bind conn m.instanceId = .error cause)

/-! ### What comes of it -/

theorem sequence_duplicate_iff {last next : Option UInt64} :
    Sequence.of last next = .duplicate ↔
      ∃ l n, last = some l ∧ next = some n ∧ n ≤ l := by
  cases last with
  | none => simp [Sequence.of]
  | some l =>
      cases next with
      | none => simp [Sequence.of]
      | some n =>
          rw [Sequence.of]
          by_cases h : n ≤ l
          · simp [h]
          · simp only [if_neg h]
            split <;> simp [h]

/-- The sum wraps behind the largest word, but past that there is no number. -/
theorem sequence_gap_iff {last next : UInt64} :
    Sequence.of (some last) (some next) = .gap ↔ last.toNat + 1 < next.toNat := by
  rw [Sequence.of]
  by_cases hle : next ≤ last
  · rw [if_pos hle]
    rw [UInt64.le_iff_toNat_le] at hle
    exact iff_of_false (by simp) (by omega)
  · have hlt : last.toNat < next.toNat := UInt64.lt_iff_toNat_lt.mp (UInt64.not_le.mp hle)
    -- below a larger word there is room for one more
    have hsum : (last + 1).toNat = last.toNat + 1 := by
      have hword : next.toNat < 2 ^ 64 := next.toNat_lt
      rw [UInt64.toNat_add, UInt64.toNat_one]
      omega
    simp only [if_neg hle, UInt64.lt_iff_toNat_lt, hsum]
    split <;> simp [*]

theorem named_of_said (h : e.said? = some (conn, m, now)) : e.named = m.instanceId := by
  rw [Event.named, h]
  rfl

/-- Input that is rejected is answered with the rejection, and it is passed over unless a session
was kept that is closed. -/
theorem Rejects.react_eq (h : f.Rejects e) (hin : e.input? = some (conn, now)) :
    ∃ after, f.react e = (some (.rejection e.named), after) ∧
      (f.HasSound → after = f.passOver conn now) := by
  cases h with
  | @malformed _ line _ cause he hd =>
      subst he
      cases hin
      have hnamed : (Event.frame conn line now).named = [] := by
        simp [Event.named, Event.said?, hd, Except.toOption]
      exact ⟨_, by rw [react_of_malformed hd, hnamed], fun _ => rfl⟩
  | unknown hm hs =>
      cases (Event.input?_of_said hm).symm.trans hin
      -- a message on a session that is closed is not even heard
      refine ⟨f, by rw [react_of_said hm, receive_of_unknown hs, named_of_said hm], fun hf => ?_⟩
      have hnone : f.sessions.get? conn = none :=
        Option.eq_none_iff_forall_ne_some.mpr fun s h => hs (hf.isOpen h)
      rw [passOver_of_none hnone]
  | @elsewhere _ m _ s hm hs hq hi hne =>
      cases (Event.input?_of_said hm).symm.trans hin
      have hopen : s.state ≠ .closed := by rw [hi]; decide
      have hr : (f.heard conn now).identify conn s m = none :=
        identify_eq_none_iff.mpr (.inl ⟨by rw [hi]; decide, hne⟩)
      refine ⟨f.heard conn now, ?_, fun _ => (passOver_of_session hs now).symm⟩
      rw [react_of_said hm, receive_of_fresh hs hopen hq, process_of_refused hr, named_of_said hm]
  | @unbound _ m _ s cause hm hs hq hi hd hb =>
      cases (Event.input?_of_said hm).symm.trans hin
      have hopen : s.state ≠ .closed := by rw [hi]; decide
      have hr : (f.heard conn now).identify conn s m = none :=
        identify_eq_none_iff.mpr (.inr ⟨hi, hd, cause, hb⟩)
      refine ⟨f.heard conn now, ?_, fun _ => (passOver_of_session hs now).symm⟩
      rw [react_of_said hm, receive_of_fresh hs hopen hq, process_of_refused hr, named_of_said hm]

/-- A repeat on an open connection is answered with nothing but the instance id and passed over. -/
theorem IsRepeat.react_eq (h : f.IsRepeat e) (hopen : f.IsOpen conn)
    (hin : e.input? = some (conn, now)) :
    f.react e = (some { instanceId := e.named }, f.passOver conn now) := by
  obtain ⟨_, m, _, s, last, next, hm, hs, hl, hn, hle⟩ := h
  cases (Event.input?_of_said hm).symm.trans hin
  obtain ⟨_, hs', hstate⟩ := hopen
  cases hs.symm.trans hs'
  have hq : Sequence.of s.lastSequence m.sequenceNum = .duplicate :=
    sequence_duplicate_iff.mpr ⟨last, next, hl, hn, hle⟩
  rw [react_of_said hm, receive_of_duplicate hs hstate hq, named_of_said hm,
    passOver_of_session hs]

/-- A repeat comes on an open connection. -/
theorem IsRepeat.isOpen (h : f.IsRepeat e) (hf : f.HasSound)
    (hin : e.input? = some (conn, now)) : f.IsOpen conn := by
  obtain ⟨_, _, _, s, -, -, hm, hs, -⟩ := h
  cases (Event.input?_of_said hm).symm.trans hin
  exact hf.isOpen hs

/-- Input is all that is answered. -/
theorem input?_of_reply? {r : Reply} (hr : f.reply? e = some r) :
    ∃ conn now, e.input? = some (conn, now) := by
  cases e with
  | message conn m now | frame conn line now => exact ⟨conn, now, rfl⟩
  | connect | close | save | createGroup | updateGroup | deleteGroup => cases hr

/-- What is answered and holds no message is a frame that cannot be read. -/
theorem rejects_of_not_said {r : Reply} (hm : e.said? = none) (hr : f.reply? e = some r) :
    f.Rejects e := by
  cases e with
  | frame conn line now =>
      cases hd : AgentMessage.decode line with
      | ok m => rw [Event.said?, hd] at hm; cases hm
      | error cause => exact .malformed rfl hd
  | message => cases hm
  | connect | close | save | createGroup | updateGroup | deleteGroup => cases hr

/-- Input is answered with an error for one of these reasons, and for no other. -/
theorem error_iff_rejects : f.IsRejected e ↔ f.Rejects e := by
  constructor
  · rintro ⟨r, hr, herror⟩
    cases hm : e.said? with
    | none => exact rejects_of_not_said hm hr
    | some said =>
        obtain ⟨conn, m, now⟩ := said
        obtain rfl : (f.receive conn m now).1 = r := by
          rw [reply?_of_said hm] at hr
          exact Option.some.inj hr
        -- a repeat, an agent that is asked what it is and a served one get no error
        cases f.receive_received conn m now with
        | unknown hs => exact .unknown hm hs
        | duplicate _ _ _ ho => rw [ho] at herror; exact absurd rfl herror
        | @refused s hs hopen hq hr =>
            obtain ⟨hi, hne⟩ | ⟨hi, hd, cause, hb⟩ := identify_eq_none_iff.mp hr
            · have hidentified : s.state = .identified := by
                cases hstate : s.state with
                | identified => rfl
                | connected => exact absurd hstate hi
                | closed => exact absurd hstate hopen
              exact .elsewhere hm hs hq hidentified hne
            · exact .unbound hm hs hq hi hd hb
        | @undescribed s _ _ _ _ ho =>
            have hopening : ((opening s m).requestFullState).error = none := opening_error m s
            rw [ho] at herror
            exact absurd hopening herror
        | served _ _ _ ho =>
            rw [ho, serveInstance_error, opening_error] at herror
            exact absurd rfl herror
  · intro h
    obtain ⟨conn, now, hin⟩ : ∃ conn now, e.input? = some (conn, now) := by
      cases h with
      | malformed he => exact ⟨_, _, by rw [he]; rfl⟩
      | unknown hm | elsewhere hm | unbound hm => exact ⟨_, _, Event.input?_of_said hm⟩
    obtain ⟨_, hreact, -⟩ := h.react_eq hin
    exact ⟨_, congrArg Prod.fst hreact, by simp [Reply.rejection]⟩

/-! ### That a connection was heard from -/

/-- A connection that is open has an entry, and its time of being heard from is all that hearing
from it changes. -/
theorem Coherent.heard_eq (hf : f.Coherent) (h : f.sessions.get? conn = some s) (now : Instant) :
    ∃ entry, f.registry.entries.get? conn = some entry ∧
      f.heard conn now = { f with registry := { f.registry with
        entries := f.registry.entries.insert conn
          { entry with lastHeard := entry.lastHeard.later now } } } := by
  have hb : f.registry.binding conn = some s.identifiedAs := by
    rw [hf.registered]
    exact binding_eq_of_session h rfl
  obtain ⟨entry, he, -⟩ := Option.map_eq_some_iff.mp hb
  refine ⟨entry, he, ?_⟩
  rw [heard, Registry.touch, Sharded.modify_eq_insert he]

/-- Input that is answered with an error or is a repeat leaves everything as it is but when its
connection was heard from last, which is the later of that time and now; and without a session it
leaves everything as it is, the connection unregistered.  An error is the same for all such input
but for the instance id that it named, and a repeat is answered with nothing else. -/
theorem refused_input_only_heard (hf : f₀.IsSetUp) (es : List Event)
    (he : e.input? = some (conn, now)) :
    let f := f₀.run es
    (f.IsRejected e → f.reply? e = some (.rejection e.named)) ∧
      (f.IsRepeat e → f.reply? e = some { instanceId := e.named }) ∧
      (f.IsRejected e ∨ f.IsRepeat e →
        (f.sessions.get? conn = none →
          f.step e = f ∧ f.registry.entries.get? conn = none) ∧
        ∀ s, f.sessions.get? conn = some s → ∃ entry,
          f.registry.entries.get? conn = some entry ∧
          f.step e = { f with registry := { f.registry with
            entries := f.registry.entries.insert conn
              { entry with lastHeard := entry.lastHeard.later now } } }) := by
  intro f
  have hcoherent : f.Coherent := Coherent.of_run hf es
  have hrejected (h : f.IsRejected e) :
      f.react e = (some (.rejection e.named), f.passOver conn now) := by
    obtain ⟨_, hreact, hafter⟩ := (error_iff_rejects.mp h).react_eq he
    rw [hreact, hafter hcoherent.sound]
  have hrepeated (h : f.IsRepeat e) :
      f.react e = (some { instanceId := e.named }, f.passOver conn now) :=
    h.react_eq (h.isOpen hcoherent.sound he) he
  refine ⟨fun h => congrArg Prod.fst (hrejected h), fun h => congrArg Prod.fst (hrepeated h),
    fun h => ?_⟩
  have hstep : f.step e = f.passOver conn now := by
    rcases h with h | h
    · exact congrArg Prod.snd (hrejected h)
    · exact congrArg Prod.snd (hrepeated h)
  refine ⟨fun hs => ⟨hstep.trans (passOver_of_none hs now), ?_⟩, fun s hs => ?_⟩
  · have hb : f.registry.binding conn = none := by
      rw [hcoherent.registered, binding, hs, Option.map_none]
    exact Option.map_eq_none_iff.mp hb
  · rw [hstep, passOver_of_session hs]
    exact hcoherent.heard_eq hs now

/-- Instance 7 sends a message for instance 8, one that is a repeat though it is for instance 8 too,
both with a time before the last, and a frame that holds no message comes on a connection that is
not open. -/
theorem refused_input_of_sample :
    let stranger : Event := .message [9] { instanceId := [8], sequenceNum := some 5 } 4
    let behind : Event := .message [9] { instanceId := [8], sequenceNum := some 3 } 4
    let malformed : Event := .frame [5] [] 4
    let f := sample.run [.connect [9] 6,
      .message [9] { instanceId := [7], sequenceNum := some 3, description := some {} } 8]
    f.reply? stranger = some (.rejection [8]) ∧ f.reply? behind = some { instanceId := [8] } ∧
      f.step behind = { f with registry := { f.registry with
        entries := f.registry.entries.insert [9] { instanceId := some [7], lastHeard := 8 } } } ∧
      f.reply? malformed = some (.rejection []) ∧ f.step malformed = f := by
  intro stranger behind malformed f
  have hs : f.sessions.get? [9] =
      some { state := .identified, instanceId := some [7], lastSequence := some 3 } := by
    decide +kernel
  have hstranger : f.IsRejected stranger := error_iff_rejects.mpr
    (.elsewhere rfl hs (by decide) rfl (by decide))
  have hbehind : f.IsRepeat behind :=
    ⟨[9], _, 4, _, 3, 3, rfl, hs, rfl, rfl, UInt64.le_refl 3⟩
  have hdecode : AgentMessage.decode [] = .error .notJson := by decide +kernel
  have hmalformed : f.IsRejected malformed := error_iff_rejects.mpr (.malformed rfl hdecode)
  obtain ⟨rejected, -, -⟩ := refused_input_only_heard sample_isFresh.isSetUp _ (e := stranger) rfl
  obtain ⟨-, repeated, left⟩ := refused_input_only_heard sample_isFresh.isSetUp _ (e := behind) rfl
  obtain ⟨unread, -, kept⟩ := refused_input_only_heard sample_isFresh.isSetUp _ (e := malformed) rfl
  obtain ⟨entry, hentry, hleft⟩ := (left (.inr hbehind)).2 _ hs
  obtain rfl : { instanceId := some [7], lastHeard := 8 } = entry := by
    have hfound : f.registry.entries.get? [9] =
        some { instanceId := some [7], lastHeard := 8 } := by decide +kernel
    exact Option.some.inj (hfound.symm.trans hentry)
  exact ⟨rejected hstranger, repeated hbehind, hleft, unread hmalformed,
    ((kept (.inl hmalformed)).1 (by decide +kernel)).1⟩

end Fleet

end FleetControl
