import FleetControl.Proofs.Session.FullState
import FleetControl.Proofs.Session.Spoken

/-!
# Numbering — a message with a number is processed once

A session keeps the number of the last message with one that it accepted, and accepts only a number
past that.  So the numbers that it has accepted ascend, and the one that it keeps is the largest of
them (`Learned.numbered`); a message whose number is not past it is a repeat, whenever it comes and
whatever came in between (`numbered_messages_processed_once`).  Messages without a number are never
repeats.

A gap shows when a number leaves others out.  The sum that tells is of words and wraps behind the
largest, but a number past the largest there is none, so that the test is that of whole numbers
(`sequence_gap_iff`).
-/

namespace FleetControl.Fleet

variable {f f₀ : Fleet} {e : Event} {conn : Bytes} {m : AgentMessage} {now : Instant}
  {ms : List AgentMessage} {s : Session}

/-! ### Numbers that ascend -/

/-- The sequence numbers that some messages carry. -/
def numbersOf (ms : List AgentMessage) : List UInt64 := ms.filterMap (·.sequenceNum)

theorem numbersOf_concat (ms : List AgentMessage) (m : AgentMessage) :
    numbersOf (ms ++ [m]) = numbersOf ms ++ m.sequenceNum.toList := by
  rw [numbersOf, List.filterMap_append]
  cases hn : m.sequenceNum <;> simp [numbersOf, hn]

/-- Of numbers that ascend the last is the largest. -/
theorem le_getLast_of_mem {numbers : List UInt64} {k last : UInt64}
    (h : numbers.Pairwise (· < ·)) (hlast : numbers.getLast? = some last) (hk : k ∈ numbers) :
    k ≤ last := by
  obtain ⟨front, rfl⟩ := List.getLast?_eq_some_iff.mp hlast
  obtain ⟨-, -, hfront⟩ := List.pairwise_append.mp h
  rcases List.mem_append.mp hk with hk | hk
  · exact UInt64.le_of_lt (hfront k hk last (List.mem_singleton_self last))
  · rw [List.mem_singleton.mp hk]
    exact UInt64.le_refl last

/-- The numbers that a session has accepted ascend, and it keeps the last of them. -/
theorem Learned.numbered (h : Learned s ms) :
    (numbersOf ms).Pairwise (· < ·) ∧ s.lastSequence = (numbersOf ms).getLast? := by
  induction h with
  | new => exact ⟨.nil, rfl⟩
  | @more s ms m _ _ h hs ih =>
      obtain ⟨hascend, hlast⟩ := ih
      rw [numbersOf_concat]
      cases hn : m.sequenceNum with
      | none =>
          rw [Option.toList_none, List.append_nil, ← hlast]
          refine ⟨hascend, ?_⟩
          rw [Session.learn, hn, Option.none_or]
      | some n =>
          rw [Option.toList_some, List.getLast?_concat]
          refine ⟨List.pairwise_append.mpr ⟨hascend, List.pairwise_singleton _ n, ?_⟩, ?_⟩
          · intro k hk n' hn'
            rw [List.mem_singleton.mp hn']
            obtain ⟨last, hl⟩ := Option.isSome_iff_exists.mp
              (List.getLast?_isSome.mpr (List.ne_nil_of_mem hk))
            -- the number is past the last one, or the message would have been a duplicate
            have hpast : last < n := UInt64.not_le.mp fun hle =>
              hs (sequence_duplicate_iff.mpr ⟨last, n, hlast.trans hl, hn, hle⟩)
            exact UInt64.lt_of_le_of_lt (le_getLast_of_mem hascend hl hk) hpast
          · rw [Session.learn, hn, Option.some_or]

/-! ### What is answered -/

/-- A message that is accepted is neither rejected nor a repeat. -/
theorem not_rejected_of_accepted (ha : f.accepted e = some (conn, m)) :
    ¬ f.IsRejected e ∧ ¬ f.IsRepeat e := by
  obtain ⟨now, s, hsaid, hs, hq, herror⟩ := said_of_accepted ha
  constructor
  · rintro ⟨r, hr, hsome⟩
    cases hr.symm.trans (reply?_of_said hsaid)
    exact hsome herror
  · rintro ⟨_, _, _, _, last, next, hm, hs', hl, hn, hle⟩
    cases hsaid.symm.trans hm
    cases hs.symm.trans hs'
    exact hq (sequence_duplicate_iff.mpr ⟨last, next, hl, hn, hle⟩)

/-- Whoever leaves numbers out is asked for its full state. -/
theorem flags_of_gap (ha : f.accepted e = some (conn, m)) (hs : f.sessions.get? conn = some s)
    (hg : Sequence.of s.lastSequence m.sequenceNum = .gap) :
    ∃ r, f.reply? e = some r ∧ r.flags = Reply.reportFullState := by
  obtain ⟨now, _, hsaid, -⟩ := said_of_accepted ha
  obtain ⟨hrejected, hrepeat⟩ := not_rejected_of_accepted ha
  obtain ⟨last, next, hl, hn, hlt⟩ := gap_iff_skipped.mp hg
  exact ⟨_, reply?_of_said hsaid, (flags_of_reason (reply?_of_said hsaid) hrejected hrepeat).1
    (.skipped hsaid hs hl hn hlt)⟩

/-- Input that is not accepted leaves every session as it is. -/
theorem sessions_of_not_accepted (ha : f.accepted e = none) (hin : e.input? = some (conn, now)) :
    (f.step e).sessions = f.sessions := by
  cases f.outcome e with
  | idle _ _ hstep | heard _ _ hstep | regrouped _ _ _ hstep =>
      have h := congrArg Fleet.sessions hstep
      exact h
  | undescribed hm => rw [ha] at hm; cases hm
  | served h => rw [h.accepted] at ha; cases ha
  | opened he | closed he | saved he => rw [he] at hin; cases hin

/-! ### The numbers of a session -/

/-- A number that a session has accepted, or a smaller one, is a repeat as long as the connection
stays open. -/
theorem isRepeat_of_accepted {es later : List Event} {k n : UInt64} (hf : f₀.IsSetUp)
    (hc : Event.close conn ∉ later) (hk : k ∈ numbersOf (f₀.spokenIn conn [] es))
    (hm : e.said? = some (conn, m, now)) (hn : m.sequenceNum = some n) (hle : n ≤ k) :
    ((f₀.run es).run later).IsRepeat e := by
  have hspoken : f₀.spokenIn conn [] es <+: f₀.spokenIn conn [] (es ++ later) := by
    rw [spokenIn_append]
    exact prefix_spokenIn _ _ hc
  have hmem : k ∈ numbersOf (f₀.spokenIn conn [] (es ++ later)) :=
    (hspoken.filterMap _).subset hk
  have hknows := knows_of_run hf conn (es ++ later)
  rw [run_append] at hknows
  cases hs : ((f₀.run es).run later).sessions.get? conn with
  | none =>
      rw [(knows_of_no_session hs).mp hknows] at hmem
      cases hmem
  | some s =>
      obtain ⟨hascend, hlast⟩ := ((knows_of_session hs).mp hknows).numbered
      obtain ⟨last, hl⟩ := Option.isSome_iff_exists.mp
        (List.getLast?_isSome.mpr (List.ne_nil_of_mem hmem))
      exact ⟨conn, m, now, s, last, n, hm, hs, hlast.trans hl, hn,
        UInt64.le_trans hle (le_getLast_of_mem hascend hl hmem)⟩

/-- A repeat is answered with the instance id, and comes to nothing but that the connection was heard
from. -/
theorem IsRepeat.only_heard (h : f.IsRepeat e) (hf : f.Coherent)
    (hm : e.said? = some (conn, m, now)) :
    f.reply? e = some { instanceId := m.instanceId } ∧
      ∃ entry, f.registry.entries.get? conn = some entry ∧
        f.step e = { f with registry := { f.registry with
          entries := f.registry.entries.insert conn
            { entry with lastHeard := entry.lastHeard.later now } } } := by
  have hin := Event.input?_of_said hm
  have hreact := h.react_eq (h.isOpen hf.sound hin) hin
  obtain ⟨_, _, _, s, -, -, hm', hs, -⟩ := h
  cases hm.symm.trans hm'
  rw [named_of_said hm, passOver_of_session hs] at hreact
  obtain ⟨entry, hentry, hheard⟩ := hf.heard_eq hs now
  exact ⟨congrArg Prod.fst hreact, entry, hentry, (congrArg Prod.snd hreact).trans hheard⟩

/-- From the opening of a connection to its close the numbers of the messages that are accepted on
it ascend, and input that is not accepted does not count.  A message with one of these numbers, or
with a smaller one, comes to nothing at any time until the close, but that the connection was heard
from.  A number past the one after the largest, counted without end, is answered with the request
for the full state. -/
theorem numbered_messages_processed_once (hf : f₀.IsSetUp) (es : List Event) (conn : Bytes) :
    let f := f₀.run es
    let numbers := numbersOf (f₀.spokenIn conn [] es)
    numbers.Pairwise (· < ·) ∧
      (f.sessions.get? conn = none → numbers = []) ∧
      (∀ s, f.sessions.get? conn = some s → s.lastSequence = numbers.getLast?) ∧
      (∀ e now, e.input? = some (conn, now) → f.accepted e = none →
        (f.step e).sessions = f.sessions ∧
          f₀.spokenIn conn [] (es ++ [e]) = f₀.spokenIn conn [] es) ∧
      (∀ later, Event.close conn ∉ later → ∀ e m now n k, e.said? = some (conn, m, now) →
        m.sequenceNum = some n → k ∈ numbers → n ≤ k →
          let g := f.run later
          g.reply? e = some { instanceId := m.instanceId } ∧
            ∃ entry, g.registry.entries.get? conn = some entry ∧
              g.step e = { g with registry := { g.registry with
                entries := g.registry.entries.insert conn
                  { entry with lastHeard := entry.lastHeard.later now } } }) ∧
      (∀ last next, Sequence.of (some last) (some next) = .gap ↔ last.toNat + 1 < next.toNat) ∧
      ∀ e m last next, f.accepted e = some (conn, m) → numbers.getLast? = some last →
        m.sequenceNum = some next → last.toNat + 1 < next.toNat →
          ∃ r, f.reply? e = some r ∧ r.flags = Reply.reportFullState := by
  intro f numbers
  -- the session holds the last of the numbers that were spoken, so the rest is about these
  have hknows := knows_of_run hf conn es
  have hsession (s : Session) (hs : f.sessions.get? conn = some s) :
      numbers.Pairwise (· < ·) ∧ s.lastSequence = numbers.getLast? :=
    ((knows_of_session hs).mp hknows).numbered
  have hnone (hs : f.sessions.get? conn = none) : numbers = [] :=
    congrArg numbersOf ((knows_of_no_session hs).mp hknows)
  refine ⟨?_, hnone, fun s hs => (hsession s hs).2, fun e now hin ha => ⟨?_, ?_⟩,
    fun later hc e m now n k hm hn hk hle => ?_, fun last next => sequence_gap_iff,
    fun e m last next ha hlast hn hgap => ?_⟩
  · cases hs : f.sessions.get? conn with
    | none => rw [hnone hs]; exact .nil
    | some s => exact (hsession s hs).1
  · exact sessions_of_not_accepted ha hin
  · have hc : e ≠ .close conn := by
      rintro rfl
      cases hin
    rw [spokenIn_append]
    exact spoken_of_accepted_none ha hc
  · exact (isRepeat_of_accepted hf hc hk hm hn hle).only_heard
      ((Coherent.of_run hf es).run later) hm
  · obtain ⟨now, s, -, hs, -⟩ := said_of_accepted ha
    refine flags_of_gap ha hs ?_
    rw [(hsession s hs).2, hlast, hn]
    exact sequence_gap_iff.mpr hgap

/-- Instance 7 has sent the numbers 5 and 7.  A message for instance 8 does not count, number 6
comes to nothing after one without a number, and the largest number leaves others out. -/
theorem numbers_of_sample :
    let sends (m : AgentMessage) : Event := .message [9] m 8
    let es := [.connect [9] 6,
      sends { instanceId := [7], sequenceNum := some 5, description := some {} },
      sends { instanceId := [7], sequenceNum := some 7 }]
    let stranger := sends { instanceId := [8], sequenceNum := some 9 }
    let later := [sends { instanceId := [7] }, .connect [5] 9]
    let again := sends { instanceId := [7], sequenceNum := some 6 }
    let far := sends { instanceId := [7], sequenceNum := some 18446744073709551615 }
    numbersOf (sample.spokenIn [9] [] es) = [5, 7] ∧
      ((sample.run es).step stranger).sessions = (sample.run es).sessions ∧
      ((sample.run es).run later).reply? again = some { instanceId := [7] } ∧
      (((sample.run es).run later).step again).registry.entries.get? [9] =
        some { instanceId := some [7], lastHeard := 8 } ∧
      ∃ r, (sample.run es).reply? far = some r ∧ r.flags = Reply.reportFullState := by
  intro sends es stranger later again far
  obtain ⟨-, -, -, hrefused, hrepeat, -, hgap⟩ :=
    numbered_messages_processed_once sample_isFresh.isSetUp es [9]
  have hnumbers : numbersOf (sample.spokenIn [9] [] es) = [5, 7] := by decide +kernel
  obtain ⟨hreply, entry, hentry, hstep⟩ := hrepeat later (by simp [later, sends]) again
    { instanceId := [7], sequenceNum := some 6 } 8 6 7 rfl rfl (by rw [hnumbers]; decide)
    (by decide)
  have hheard : ((sample.run es).run later).registry.entries.get? [9] =
      some { instanceId := some [7], lastHeard := 8 } := by decide +kernel
  have hstranger : (sample.run es).accepted stranger = none := by decide +kernel
  have hfar : (sample.run es).accepted far =
      some ([9], { instanceId := [7], sequenceNum := some 18446744073709551615 }) := by
    decide +kernel
  refine ⟨hnumbers, (hrefused stranger 8 rfl hstranger).1, hreply, ?_,
    hgap far _ 7 _ hfar (by rw [hnumbers]; rfl) rfl (by decide)⟩
  rw [hheard] at hentry
  obtain rfl := Option.some.inj hentry
  rw [hstep, Sharded.get?_insert]
  rfl

end FleetControl.Fleet
