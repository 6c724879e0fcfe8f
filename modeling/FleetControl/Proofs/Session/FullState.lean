import FleetControl.Proofs.Session.Delivery
import FleetControl.Proofs.Session.Refusal

/-!
# Full state — when an agent is asked for all it knows

An agent is asked for its full state for one of three reasons, which `AsksAll` lists: its message
leaves numbers out, it has not described itself yet, or the answer bears a command that asks for it.
The first shows before anything else is known of the message (`opening_flags`), the second ends the
message where it is found, and the third turns up as commands are added, which sets no flag but for
a command that is in the answer (`deliver_flags`).

So the flags of an answer say one thing only.  They are set exactly if there is a reason, and they
are never set in a rejection and in the answer to a repeat (`full_state_requested_iff_reason`).
-/

namespace FleetControl

/-- The answer bears a command that asks for the full state. -/
def Reply.BearsFullStateCommand (r : Reply) : Prop := ∃ d ∈ r.commands, d.kind = .reportFullState

namespace Fleet

variable {f f₀ : Fleet} {e : Event} {conn i : Bytes} {m : AgentMessage} {now : Instant}
  {s s' : Session} {registry : Registry} {reply : Reply}

/-- Why a message that is accepted is answered with the request for the full state. -/
inductive AsksAll (f : Fleet) (e : Event) : Prop where
  /-- The number of the message is past the one after the last. -/
  | skipped {conn : Bytes} {m : AgentMessage} {now : Instant} {s : Session} {last next : UInt64}
      (hm : e.said? = some (conn, m, now)) (hs : f.sessions.get? conn = some s)
      (hl : s.lastSequence = some last) (hn : m.sequenceNum = some next)
      (hgap : last.toNat + 1 < next.toNat)
  /-- The agent is not known, and the message does not describe it. -/
  | undescribed {conn : Bytes} {m : AgentMessage} {now : Instant}
      (hm : e.said? = some (conn, m, now)) (hs : f.sessionState conn = .ok .connected)
      (hd : m.description = none)
  /-- The agent is known by now, and the answer bears the command. -/
  | commanded {conn : Bytes} {m : AgentMessage} {now : Instant} {reply : Reply}
      (hm : e.said? = some (conn, m, now)) (hs : (f.step e).sessionState conn = .ok .identified)
      (hr : f.reply? e = some reply) (hc : reply.BearsFullStateCommand)

/-! ### The flags of an answer -/

theorem gap_iff_skipped : Sequence.of s.lastSequence m.sequenceNum = .gap ↔
    ∃ last next, s.lastSequence = some last ∧ m.sequenceNum = some next ∧
      last.toNat + 1 < next.toNat := by
  cases hl : s.lastSequence with
  | none => simp [Sequence.of]
  | some last =>
      cases hn : m.sequenceNum with
      | none => simp [Sequence.of]
      | some next => simp [sequence_gap_iff]

theorem opening_flags (s : Session) (m : AgentMessage) : (opening s m).flags =
    if Sequence.of s.lastSequence m.sequenceNum = .gap then Reply.reportFullState else 0 := by
  rw [opening]
  cases hq : Sequence.of s.lastSequence m.sequenceNum <;> simp [Reply.requestFullState]

theorem opening_commands (s : Session) (m : AgentMessage) : (opening s m).commands = [] := by
  rw [opening]
  split <;> rfl

theorem opening_flags_cases (s : Session) (m : AgentMessage) :
    (opening s m).flags = Reply.reportFullState ∨ (opening s m).flags = 0 := by
  rw [opening_flags]
  split
  · exact .inl rfl
  · exact .inr rfl

/-- Asking twice is asking once. -/
theorem requestFullState_flags (h : reply.flags = Reply.reportFullState ∨ reply.flags = 0) :
    reply.requestFullState.flags = Reply.reportFullState := by
  rcases h with h | h <;> rw [Reply.requestFullState, h] <;> rfl

/-- Commands that are added set the flag if one of them asks for the full state, and nothing
otherwise. -/
theorem deliver_flags (f : Fleet) (i : Bytes) (hc : reply.commands = []) :
    let out := (f.deliver i reply).1
    (out.BearsFullStateCommand → out.flags = reply.requestFullState.flags) ∧
      (¬ out.BearsFullStateCommand → out.flags = reply.flags) := by
  intro out
  rw [show out = (f.deliver i reply).1 from rfl, deliver]
  dsimp only
  split
  · -- nothing is added if the log does not answer
    refine ⟨?_, fun _ => rfl⟩
    rintro ⟨d, hd, -⟩
    rw [hc] at hd
    cases hd
  · rename_i pending _
    obtain ⟨picked, hpicked⟩ : ∃ picked,
      picked = (f.ledger i).pick f.perReply.toNat pending := ⟨_, rfl⟩
    rw [← hpicked]
    have hbears : ∀ r : Reply, r.commands = picked.commands.map Command.delivery →
        (r.BearsFullStateCommand ↔ picked.commands.any (·.kind == .reportFullState) = true) := by
      intro r hr
      simp [Reply.BearsFullStateCommand, hr, Command.delivery]
    by_cases hasks : picked.commands.any (·.kind == .reportFullState) = true
    · rw [if_pos hasks]
      have hout : ({ reply with commands := picked.commands.map Command.delivery } :
        Reply).requestFullState.BearsFullStateCommand := (hbears _ rfl).mpr hasks
      split <;> exact ⟨fun _ => rfl, fun hno => absurd hout hno⟩
    · rw [if_neg hasks]
      have hout : ¬ ({ reply with commands := picked.commands.map Command.delivery } :
        Reply).BearsFullStateCommand := fun hb => hasks ((hbears _ rfl).mp hb)
      split <;> exact ⟨fun hb => absurd hb hout, fun _ => rfl⟩

/-- A message that is served is answered with the flag if it leaves numbers out or the answer bears
a command that asks for the full state, and without flags otherwise. -/
theorem Serves.flags (h : f.Serves e conn m now s s' registry) :
    ∃ reply, f.reply? e = some reply ∧
      (Sequence.of s.lastSequence m.sequenceNum = .gap ∨ reply.BearsFullStateCommand →
        reply.flags = Reply.reportFullState) ∧
      (Sequence.of s.lastSequence m.sequenceNum ≠ .gap → ¬ reply.BearsFullStateCommand →
        reply.flags = 0) := by
  obtain ⟨g, config, hout⟩ : ∃ (g : Fleet) (config : Option PushedConfig), f.receive conn m now =
      g.deliver m.instanceId { opening s m with remoteConfig := config } :=
    ⟨_, _, by rw [h.received]; rfl⟩
  have hcommands : ({ opening s m with remoteConfig := config } : Reply).commands = [] :=
    opening_commands s m
  obtain ⟨hset, hkept⟩ := g.deliver_flags m.instanceId hcommands
  refine ⟨_, reply?_of_said h.said, ?_⟩
  rw [hout]
  refine ⟨fun hreason => ?_, fun hgap hb => ?_⟩
  · by_cases hb : (g.deliver m.instanceId { opening s m with remoteConfig := config }).1
      |>.BearsFullStateCommand
    · rw [hset hb]
      exact requestFullState_flags (opening_flags_cases s m)
    · rw [hkept hb, opening_flags, if_pos (hreason.resolve_right hb)]
  · rw [hkept hb, opening_flags, if_neg hgap]

/-! ### Reasons -/

/-- A message that is served comes from an agent that is known before or described by it. -/
theorem Serves.not_undescribed (h : f.Serves e conn m now s s' registry)
    (hs : f.sessionState conn = .ok .connected) : m.description ≠ none := by
  obtain ⟨_, hs', hi⟩ := sessionState_eq_ok_iff.mp hs
  cases h.session.symm.trans hs'
  cases h.carries with
  | before hidentified => rw [hi] at hidentified; cases hidentified
  | binding _ hd => exact Option.isSome_iff_ne_none.mp hd

theorem Serves.identified (h : f.Serves e conn m now s s' registry) :
    (f.step e).sessionState conn = .ok .identified := by
  refine sessionState_eq_ok_iff.mpr ⟨Session.learn s' m, ?_, h.carries.state⟩
  rw [h.step_sessions, Table.get?_insert, if_pos rfl]

/-- A message that is served asks for all for the reasons that set its flags. -/
theorem Serves.asksAll_iff (h : f.Serves e conn m now s s' registry)
    (hr : f.reply? e = some reply) :
    f.AsksAll e ↔
      Sequence.of s.lastSequence m.sequenceNum = .gap ∨ reply.BearsFullStateCommand := by
  constructor
  · rintro (⟨hm, hs, hl, hn, hgap⟩ | ⟨hm, hs, hd⟩ | ⟨hm, hs, hr', hc⟩)
    · cases h.said.symm.trans hm
      cases h.session.symm.trans hs
      exact .inl (gap_iff_skipped.mpr ⟨_, _, hl, hn, hgap⟩)
    · cases h.said.symm.trans hm
      exact absurd hd (h.not_undescribed hs)
    · cases hr.symm.trans hr'
      exact .inr hc
  · rintro (hgap | hc)
    · obtain ⟨last, next, hl, hn, hlt⟩ := gap_iff_skipped.mp hgap
      exact .skipped h.said h.session hl hn hlt
    · exact .commanded h.said h.identified hr hc

/-- An answer that is neither a rejection nor the answer to a repeat has the flag exactly if there
is a reason, and no flags otherwise. -/
theorem flags_of_reason (hr : f.reply? e = some reply) (hrejected : ¬ f.IsRejected e)
    (hrepeat : ¬ f.IsRepeat e) :
    (f.AsksAll e → reply.flags = Reply.reportFullState) ∧ (¬ f.AsksAll e → reply.flags = 0) := by
  cases hm : e.said? with
  | none => exact absurd (error_iff_rejects.mpr (rejects_of_not_said hm hr)) hrejected
  | some said =>
      obtain ⟨conn, m, now⟩ := said
      have hreply : reply = (f.receive conn m now).1 :=
        Option.some.inj (hr.symm.trans (reply?_of_said hm))
      cases f.receive_received conn m now with
      | unknown hs => exact absurd (error_iff_rejects.mpr (.unknown hm hs)) hrejected
      | @duplicate s hs _ hq =>
          obtain ⟨last, next, hl, hn, hle⟩ := sequence_duplicate_iff.mp hq
          exact absurd ⟨conn, m, now, s, last, next, hm, hs, hl, hn, hle⟩ hrepeat
      | refused _ _ _ _ ho =>
          rw [ho] at hreply
          exact absurd ⟨reply, hr, by rw [hreply]; simp [Reply.rejection]⟩ hrejected
      | @undescribed s hs _ hi hd ho =>
          have hreason : f.AsksAll e :=
            .undescribed hm (sessionState_eq_ok_iff.mpr ⟨s, hs, hi⟩) hd
          refine ⟨fun _ => ?_, fun hno => absurd hreason hno⟩
          rw [hreply, ho]
          exact requestFullState_flags (opening_flags_cases s m)
      | served hs hq hc ho =>
          have h : f.Serves e conn m now _ _ _ := ⟨hm, hs, hq, hc, ho⟩
          obtain ⟨_, hr', hset, hkept⟩ := h.flags
          cases hr.symm.trans hr'
          refine ⟨fun ha => hset ((h.asksAll_iff hr).mp ha), fun hno => ?_⟩
          obtain ⟨hgap, hb⟩ := not_or.mp fun hor => hno ((h.asksAll_iff hr).mpr hor)
          exact hkept hgap hb

/-! ### The commands that count -/

/-- Of the commands of an instance only the first that are not acknowledged can be in an answer. -/
theorem Delivers.bearsFullStateCommand_iff {acks : List Receipt} {saved : List Command}
    (h : f.Delivers acks saved) (hmost : f.perReply.toNat < 2 ^ 63)
    (hs : f.Serves e conn m now s s' registry) (hr : f.reply? e = some reply) :
    reply.BearsFullStateCommand ↔
      ∃ c ∈ ((f.store.log.ofInstance m.instanceId).filter fun c =>
          !acknowledgedIn (acks ++ f.receipts e) m.instanceId c).take f.perReply.toNat,
        c.kind = .reportFullState := by
  have hcommands := (h.serves hmost hs).1
  rw [hr, Option.map_some, Option.some_inj, ← h.ofInstance] at hcommands
  rw [Reply.BearsFullStateCommand, hcommands]
  simp only [List.mem_map, exists_exists_and_eq_and, Command.delivery]

/-- What is rejected and what is a repeat is answered without flags.  Every other message is
answered with the request for the full state if there is a reason for it, and without flags
otherwise.  On a run with a working log the commands that are a reason are those among the first of
the instance that are not acknowledged, as many as fit in the answer. -/
theorem full_state_requested_iff_reason (hr : f.reply? e = some reply) :
    (f.IsRejected e ∨ f.IsRepeat e → reply.flags = 0) ∧
      (¬ f.IsRejected e → ¬ f.IsRepeat e →
        (f.AsksAll e → reply.flags = Reply.reportFullState) ∧
          (¬ f.AsksAll e → reply.flags = 0)) ∧
      ∀ (f₀ : Fleet) es i, f₀.IsFresh → f₀.perReply.toNat < 2 ^ 63 → f₀.Timely es → f = f₀.run es →
        f.processedFor e = some i →
        (reply.BearsFullStateCommand ↔
          ∃ c ∈ ((f.store.log.ofInstance i).filter fun c =>
              !acknowledgedIn (f₀.history (es ++ [e])) i c).take f₀.perReply.toNat,
            c.kind = .reportFullState) := by
  refine ⟨fun h => ?_, flags_of_reason hr, fun f₀ es i hf hmost ht hrun hp => ?_⟩
  · obtain ⟨conn, now, hin⟩ := input?_of_reply? hr
    have hrejected (h : f.Rejects e) : reply.flags = 0 := by
      obtain ⟨_, hreact, -⟩ := h.react_eq hin
      cases hr.symm.trans (congrArg Prod.fst hreact)
      rfl
    rcases h with h | h
    · exact hrejected (error_iff_rejects.mp h)
    · by_cases hopen : f.IsOpen conn
      · cases hr.symm.trans (congrArg Prod.fst (h.react_eq hopen hin))
        rfl
      · -- on a session that is closed a repeat is not looked for
        obtain ⟨_, _, _, _, _, _, hm, -⟩ := h
        cases (Event.input?_of_said hm).symm.trans hin
        exact hrejected (.unknown hm hopen)
  · subst hrun
    have hperReply : (f₀.run es).perReply = f₀.perReply := f₀.run_perReply es
    have hlast : f₀.history (es ++ [e]) = f₀.history es ++ (f₀.run es).receipts e := by
      rw [history_append, history, history, List.append_nil]
    obtain ⟨_, m, _, _, _, _, hs, rfl⟩ := serves_of_processedFor hp
    rw [hlast, ← hperReply]
    exact (Delivers.of_run hf hmost ht).bearsFullStateCommand_iff (hperReply ▸ hmost) hs hr

/-- Two commands for instance 7, of which the second asks for its full state. -/
def fullStateSaves : List Event :=
  [.save ⟨.restart, [7], .null⟩ 5, .save ⟨.reportFullState, [7], .null⟩ 5, .connect [9] 6]

theorem fullStateSaves_timely : sample.Timely fullStateSaves := by
  refine ⟨⟨by decide, ?_⟩, ⟨by decide, ?_⟩, trivial, trivial⟩
  · intro t ht
    cases ht
  · intro t ht hn
    cases ht
    decide

/-- With one command to an answer the second is a reason once the first is acknowledged, and not
before. -/
theorem full_state_command_waits :
    let f := sample.run fullStateSaves
    (∃ reply, f.reply? (sampleMessage [9] []) = some reply ∧ reply.flags = 0) ∧
      ∃ reply, f.reply? (sampleMessage [9] [[1]]) = some reply ∧
        reply.flags = Reply.reportFullState := by
  intro f
  have hrepeat (ids : List Bytes) : ¬ f.IsRepeat (sampleMessage [9] ids) := by
    rintro ⟨_, _, _, _, _, _, hm, _, _, hn, _⟩
    cases hm
    cases hn
  have hrejected (ids : List Bytes)
      (herror : (f.reply? (sampleMessage [9] ids)).map (·.error) = some none) :
      ¬ f.IsRejected (sampleMessage [9] ids) := by
    rintro ⟨r, hr, hsome⟩
    rw [hr] at herror
    exact hsome (Option.some.inj herror)
  refine ⟨⟨_, reply?_of_said rfl, ?_⟩, ⟨_, reply?_of_said rfl, ?_⟩⟩
  · obtain ⟨-, hflags, hcounts⟩ := full_state_requested_iff_reason (f := f)
      (e := sampleMessage [9] []) (reply?_of_said rfl)
    have hkinds : (((f.store.log.ofInstance [7]).filter fun c =>
        !acknowledgedIn (sample.history (fullStateSaves ++ [sampleMessage [9] []])) [7] c).take
          sample.perReply.toNat).map (·.kind) = [.restart] := by decide +kernel
    refine (hflags (hrejected [] (by decide +kernel)) (hrepeat [])).2 ?_
    -- no number is sent and the message describes the agent, so only a command could ask
    rintro (⟨hm, -, -, hn, -⟩ | ⟨hm, -, hd⟩ | ⟨hm, -, hr, hc⟩)
    · cases hm
      cases hn
    · cases hm
      cases hd
    · cases (reply?_of_said rfl).symm.trans hr
      obtain ⟨c, hc, hkind⟩ := (hcounts sample fullStateSaves [7] sample_isFresh (by decide)
        fullStateSaves_timely rfl (by decide +kernel)).mp hc
      have hmem := List.mem_map_of_mem (f := (·.kind)) hc
      rw [hkinds, hkind] at hmem
      cases List.mem_singleton.mp hmem
  · obtain ⟨-, hflags, hcounts⟩ := full_state_requested_iff_reason (f := f)
      (e := sampleMessage [9] [[1]]) (reply?_of_said rfl)
    have hkinds : (((f.store.log.ofInstance [7]).filter fun c =>
        !acknowledgedIn (sample.history (fullStateSaves ++ [sampleMessage [9] [[1]]])) [7] c).take
          sample.perReply.toNat).map (·.kind) = [.reportFullState] := by decide +kernel
    refine (hflags (hrejected [[1]] (by decide +kernel)) (hrepeat [[1]])).1 ?_
    refine .commanded rfl (by decide +kernel) (reply?_of_said rfl) ?_
    refine (hcounts sample fullStateSaves [7] sample_isFresh (by decide) fullStateSaves_timely rfl
      (by decide +kernel)).mpr ?_
    have hmem : CommandKind.reportFullState ∈ [CommandKind.reportFullState] :=
      List.mem_singleton_self _
    rw [← hkinds] at hmem
    exact List.mem_map.mp hmem

end Fleet

end FleetControl
