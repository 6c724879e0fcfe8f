import FleetControl.Proofs.Command.Journal
import FleetControl.Proofs.Json.Whole
import FleetControl.Proofs.Message.ReplyFrame

/-!
# Narrowing — numbers that do not fit their field

The flags of an answer are a word of 32 bits and the time of a command is a signed word of 64, while
a JSON value holds whole numbers of 64 bits with and without sign.  A number is accepted for what
kind it is of, and then cut to the field.  So what is read is the number that was written exactly if
it fits (`Reply.flags_of_decode`, `Command.time_of_ofJson`), and otherwise another number.  Only
what is no whole number, and a sign in front of flags, is refused; a line of the journal that is
refused is named (`Journal.replay_of_no_time`).
-/

namespace FleetControl

/-- Objects with the same members but for one key. -/
def Json.SameBut (key : Bytes) (j j' : Json) : Prop :=
  ∀ other, other ≠ key → j'.get? other = j.get? other

open Json (whole?)

/-! ### Flags -/

namespace Reply

variable {frame : Bytes} {j j' v : Json} {r : Reply}

theorem readFlags_of_ofJson (h : ofJson j = .ok r) : readFlags j = .ok r.flags := by
  rw [ofJson] at h
  obtain ⟨_, _, h⟩ := exists_of_bind_eq_ok h
  obtain ⟨_, _, h⟩ := exists_of_bind_eq_ok h
  obtain ⟨_, _, h⟩ := exists_of_bind_eq_ok h
  obtain ⟨_, _, h⟩ := exists_of_bind_eq_ok h
  obtain ⟨flags, hflags, h⟩ := exists_of_bind_eq_ok h
  cases h
  exact hflags

/-- Flags are the low bits of the number that the frame has. -/
theorem flags_of_readFlags {flags : UInt32} (hv : j.given? (utf8 "flags") = some v)
    (h : readFlags j = .ok flags) :
    ∃ z, v.whole? = some z ∧ 0 ≤ z ∧ (flags.toNat : ℤ) = z % 2 ^ 32 := by
  rw [readFlags, hv] at h
  cases v with
  | unsigned n =>
      cases h
      refine ⟨n.toNat, rfl, Int.natCast_nonneg _, ?_⟩
      rw [UInt64.toNat_toUInt32]
      rfl
  | null | bool | signed | double | str | arr | obj => cases h

/-- What is decoded has the flags of the frame exactly if they fit. -/
theorem flags_of_decode (hp : Frame.parse frame = .ok j) (hv : j.given? (utf8 "flags") = some v)
    (h : decode frame = .ok r) :
    ∃ z, v.whole? = some z ∧ 0 ≤ z ∧ (r.flags.toNat : ℤ) = z % 2 ^ 32 ∧
      ((r.flags.toNat : ℤ) = z ↔ z < 2 ^ 32) := by
  rw [decode, hp] at h
  obtain ⟨z, hz, hnonneg, hflags⟩ := flags_of_readFlags hv (readFlags_of_ofJson h)
  refine ⟨z, hz, hnonneg, hflags, ?_⟩
  rw [hflags]
  omega

/-- Whether a frame is accepted does not depend on how large its flags are. -/
theorem ofJson_of_other_flags {n n' : UInt64} (h : Json.SameBut (utf8 "flags") j j')
    (hn : j.get? (utf8 "flags") = some (.unsigned n))
    (hn' : j'.get? (utf8 "flags") = some (.unsigned n')) :
    ofJson j' = (ofJson j).map fun r => { r with flags := n'.toUInt32 } := by
  have hflags : readFlags j = .ok n.toUInt32 := by
    rw [readFlags, Json.given?, hn]
    rfl
  have hflags' : readFlags j' = .ok n'.toUInt32 := by
    rw [readFlags, Json.given?, hn']
    rfl
  have hconfig : readConfig j' = readConfig j := by
    rw [readConfig, Frame.object?, Json.given?, h _ (by decide)]
    rfl
  have hcommands : readCommands j' = readCommands j := by
    rw [readCommands, Json.given?, h _ (by decide)]
    rfl
  have herror : readError j' = readError j := by
    rw [readError, Frame.object?, Json.given?, h _ (by decide)]
    rfl
  have htext : Frame.text? j' (utf8 "instanceId") = Frame.text? j (utf8 "instanceId") := by
    rw [Frame.text?, Json.given?, h _ (by decide)]
    rfl
  -- the flags are read last, so all other refusals come before them
  rw [ofJson, ofJson, htext, hconfig, hcommands, herror, hflags, hflags']
  cases Frame.text? j (utf8 "instanceId") with
  | error => rfl
  | ok =>
      cases readConfig j with
      | error => rfl
      | ok =>
          cases readCommands j with
          | error => rfl
          | ok => cases readError j <;> rfl

end Reply

/-! ### Times -/

namespace Command

variable {j j' : Json} {c : Command} {z : ℤ}

/-- The time that a record has, as the whole number that it is. -/
def recordedTime? (j : Json) : Option ℤ := (j.get? (utf8 "createdAtUnixNano")).bind whole?

theorem recordedTime?_toJson (c : Command) : recordedTime? c.toJson = some c.createdAt.toInt := by
  have htime : c.toJson.get? (utf8 "createdAtUnixNano") = some (.ofInt64 c.createdAt) := rfl
  rw [recordedTime?, htime, Option.bind_some, Json.whole?_ofInt64]

theorem recordedTime?_range (h : recordedTime? j = some z) : -2 ^ 63 ≤ z ∧ z < 2 ^ 64 := by
  obtain ⟨v, -, hv⟩ := Option.bind_eq_some_iff.mp h
  exact Json.whole?_range hv

/-- What is read of a time is what a signed word keeps of it. -/
theorem int64?_time (j : Json) : (j.get? (utf8 "createdAtUnixNano")).bind Json.int64? =
    (recordedTime? j).map Int64.ofInt := by
  rw [recordedTime?, Option.map_bind]
  exact congrArg _ (funext Json.int64?_eq)

/-- What is read has the time of the record exactly if it fits. -/
theorem time_of_ofJson (h : ofJson j = .ok c) :
    ∃ z, recordedTime? j = some z ∧ c.createdAt = Int64.ofInt z ∧
      (c.createdAt.toInt = z ↔ z < 2 ^ 63) := by
  rw [ofJson] at h
  split at h
  · cases h
  obtain ⟨_, _, h⟩ := exists_of_bind_eq_ok h
  obtain ⟨_, _, h⟩ := exists_of_bind_eq_ok h
  obtain ⟨_, _, h⟩ := exists_of_bind_eq_ok h
  dsimp only at h
  rw [int64?_time] at h
  cases hz : recordedTime? j with
  | none => rw [hz] at h; cases h
  | some z =>
      rw [hz] at h
      obtain ⟨_, ⟨⟩, h⟩ := exists_of_bind_eq_ok h
      obtain ⟨_, _, h⟩ := exists_of_bind_eq_ok h
      cases h
      obtain ⟨hmin, hmax⟩ := recordedTime?_range hz
      exact ⟨z, rfl, rfl, Json.toInt_ofInt_eq_iff hmin hmax⟩

theorem textField_cases (j : Json) (name : Bytes) :
    (∃ s, textField j name = .ok s) ∨ textField j name = .error .missingFields := by
  rw [textField]
  split
  · exact .inl ⟨_, rfl⟩
  · exact .inr rfl

/-- A record without a whole number for its time is refused as one that lacks a field, whichever
it lacks besides. -/
theorem ofJson_of_no_time (ho : j.isObject = true) (h : recordedTime? j = none) :
    ofJson j = .error .missingFields := by
  have htime : (j.get? (utf8 "createdAtUnixNano")).bind Json.int64? = none := by
    rw [int64?_time, h, Option.map_none]
  rw [ofJson, ho, if_neg (by decide)]
  rcases textField_cases j (utf8 "id") with ⟨id, hid⟩ | hid <;>
    rcases textField_cases j (utf8 "kind") with ⟨kind, hkind⟩ | hkind <;>
    rcases textField_cases j (utf8 "targetInstanceId") with ⟨target, htarget⟩ | htarget <;>
    simp only [hid, hkind, htarget, htime] <;> rfl

/-- Whether a record is accepted does not depend on how large its time is. -/
theorem ofJson_of_other_time {z' : ℤ} (h : Json.SameBut (utf8 "createdAtUnixNano") j j')
    (ho : j'.isObject = j.isObject) (hz : recordedTime? j = some z)
    (hz' : recordedTime? j' = some z') :
    ofJson j' = (ofJson j).map fun c => { c with createdAt := Int64.ofInt z' } := by
  have hfield (name : Bytes) (hne : name ≠ utf8 "createdAtUnixNano") :
      textField j' name = textField j name := by
    rw [textField, h _ hne]
    rfl
  rw [ofJson, ofJson, hfield _ (by decide), hfield _ (by decide), hfield _ (by decide), ho,
    h (utf8 "data") (by decide)]
  simp only [int64?_time, hz, hz', Option.map_some]
  cases j.isObject with
  | false => rfl
  | true =>
      cases textField j (utf8 "id") with
      | error => rfl
      | ok =>
          cases textField j (utf8 "kind") with
          | error => rfl
          | ok kind =>
              cases textField j (utf8 "targetInstanceId") with
              | error => rfl
              | ok => cases hkind : kindOfName kind <;> simp only [bind, Except.bind, hkind] <;> rfl

end Command

/-! ### Lines of a journal -/

namespace Journal

variable {line : Bytes} {lines others : List Bytes} {cs : List Command} {found : Option Command}

/-- What is read of a line: nothing if it is blank, and the command of its record otherwise. -/
theorem found_of_readLine {number : ℕ} (h : readLine line number = .ok found) :
    (line.isEmpty = true ∧ found = none) ∨
      line.isEmpty = false ∧ ∃ j c, Json.parse? line = some j ∧ Command.ofJson j = .ok c ∧
        found = some c := by
  rw [readLine] at h
  by_cases hblank : line.isEmpty = true
  · rw [if_pos hblank] at h
    cases h
    exact .inl ⟨hblank, rfl⟩
  · rw [if_neg hblank] at h
    refine .inr ⟨Bool.eq_false_iff.mpr hblank, ?_⟩
    cases hp : Json.parse? line with
    | none => rw [hp] at h; cases h
    | some j =>
        rw [hp] at h
        dsimp only at h
        cases hj : Command.ofJson j with
        | error cause => rw [hj] at h; cases h
        | ok c =>
            rw [hj] at h
            cases h
            exact ⟨j, c, rfl, hj, rfl⟩

/-- The lines that are not blank, each with the command of its record. -/
theorem Reads.records (h : Reads lines cs) :
    List.Forall₂ (fun line c => ∃ j, Json.parse? line = some j ∧ Command.ofJson j = .ok c)
      (lines.filter fun line => !line.isEmpty) cs := by
  induction h with
  | nil => exact .nil
  | line hl _ ih =>
      rcases found_of_readLine (hl 0) with ⟨hblank, rfl⟩ | ⟨hblank, j, c, hp, hj, rfl⟩
      · simpa [List.filter_cons, hblank] using ih
      · simpa [List.filter_cons, hblank] using ⟨⟨j, hp, hj⟩, ih⟩

/-- The first line that is refused is named. -/
theorem foundFrom_of_refused {cause : Command.Refusal} (h : Reads lines cs)
    (hr : ∀ number, readLine line number = .error (.invalid number cause)) (others : List Bytes)
    (number : ℕ) :
    foundFrom (lines ++ line :: others) number =
      .error (.invalid (number + lines.length) cause) := by
  induction h generalizing number with
  | nil =>
      rw [List.nil_append, foundFrom_cons, hr]
      rfl
  | @line _ _ lines _ hl _ ih =>
      have hcount : number + 1 + lines.length = number + (lines.length + 1) := by omega
      rw [List.cons_append, foundFrom_cons, hl number, ih (number + 1), List.length_cons, hcount]
      rfl

/-- A line whose record has no whole number for its time ends the reading, and is named. -/
theorem replay_of_no_time {path content : Bytes} {j : Json}
    (hc : (Lines.cut content).complete = lines ++ line :: others) (h : Reads lines cs)
    (hp : Json.parse? line = some j) (ho : j.isObject = true)
    (ht : Command.recordedTime? j = none) :
    ({ path, entry := .file content } : Journal).replay =
      .error (.invalid (lines.length + 1) .missingFields) := by
  have hblank : line.isEmpty = false := by
    cases line with
    | nil => exact absurd hp (by rw [show Json.parse? [] = none by decide +kernel]; exact nofun)
    | cons b rest => rfl
  have hr (number : ℕ) : readLine line number = .error (.invalid number .missingFields) := by
    simp only [readLine, hblank, hp, Command.ofJson_of_no_time ho ht, Bool.false_eq_true, if_false]
  have hlines : readLines (Lines.cut content).complete =
      .error (.invalid (lines.length + 1) .missingFields) := by
    have hfound := foundFrom_of_refused h hr others 1
    rw [Nat.add_comm 1, ← hc] at hfound
    exact congrArg (· >>= fun found => pure (found.filterMap id)) hfound
  simp only [replay, hlines]
  rfl

end Journal

/-! ### Numbers that fit -/

/-- A number that is read is the one that was written exactly if it fits its field, and how large it
is plays no part in whether it is accepted: the flags of an answer keep its low 32 bits, the time of
a command what a signed word keeps of it, also where it is read from a journal.  What is no whole
number is refused, and a line of a journal that holds none is named. -/
theorem numbers_kept_iff_fit (frame path content : Bytes) (j : Json) :
    (∀ doc v, Frame.parse frame = .ok doc → doc.given? (utf8 "flags") = some v →
      (∀ r, Reply.decode frame = .ok r → ∃ z, v.whole? = some z ∧ 0 ≤ z ∧
        (r.flags.toNat : ℤ) = z % 2 ^ 32 ∧ ((r.flags.toNat : ℤ) = z ↔ z < 2 ^ 32)) ∧
      ((∀ z, v.whole? = some z → z < 0) →
        ∃ cause, Reply.decode frame = .error cause ∧ cause.fault = .protocol cause.message)) ∧
    (∀ j' n n', Json.SameBut (utf8 "flags") j j' → j.get? (utf8 "flags") = some (.unsigned n) →
      j'.get? (utf8 "flags") = some (.unsigned n') →
      Reply.ofJson j' = (Reply.ofJson j).map fun r => { r with flags := n'.toUInt32 }) ∧
    (∀ c, Command.ofJson j = .ok c → ∃ z, Command.recordedTime? j = some z ∧
      c.createdAt = Int64.ofInt z ∧ (c.createdAt.toInt = z ↔ z < 2 ^ 63) ∧
      (Command.recordedTime? c.toJson = some z ↔ z < 2 ^ 63)) ∧
    (j.isObject = true → Command.recordedTime? j = none →
      Command.ofJson j = .error .missingFields) ∧
    (∀ j' z z', Json.SameBut (utf8 "createdAtUnixNano") j j' → j'.isObject = j.isObject →
      Command.recordedTime? j = some z → Command.recordedTime? j' = some z' →
      Command.ofJson j' = (Command.ofJson j).map fun c => { c with createdAt := Int64.ofInt z' }) ∧
    (∀ replay, ({ path, entry := .file content } : Journal).replay = .ok replay →
      List.Forall₂ (fun line c => ∃ record z, Json.parse? line = some record ∧
          Command.recordedTime? record = some z ∧ c.createdAt = Int64.ofInt z ∧
          (c.createdAt.toInt = z ↔ z < 2 ^ 63))
        ((Lines.cut content).complete.filter fun line => !line.isEmpty) replay.commands) ∧
    ∀ lines line others cs record, (Lines.cut content).complete = lines ++ line :: others →
      Journal.Reads lines cs → Json.parse? line = some record → record.isObject = true →
      Command.recordedTime? record = none →
      ({ path, entry := .file content } : Journal).replay =
        .error (.invalid (lines.length + 1) .missingFields) := by
  refine ⟨fun doc v hp hv => ⟨fun r h => Reply.flags_of_decode hp hv h, fun hneg => ?_⟩,
    fun j' n n' h hn hn' => Reply.ofJson_of_other_flags h hn hn', fun c h => ?_,
    Command.ofJson_of_no_time,
    fun j' z z' h ho hz hz' => Command.ofJson_of_other_time h ho hz hz',
    fun replay h => ?_, fun lines line others cs record hc hr hp ho ht =>
      Journal.replay_of_no_time hc hr hp ho ht⟩
  · -- the flags of a frame that is accepted are not negative
    cases hd : Reply.decode frame with
    | error cause => exact ⟨cause, rfl, rfl⟩
    | ok r =>
        obtain ⟨z, hz, hnonneg, -⟩ := Reply.flags_of_decode hp hv hd
        exact absurd (hneg z hz) (Int.not_lt.mpr hnonneg)
  · obtain ⟨z, hz, htime, hfits⟩ := Command.time_of_ofJson h
    refine ⟨z, hz, htime, hfits, ?_⟩
    rw [c.recordedTime?_toJson, Option.some_inj]
    exact hfits
  · have hreads : Journal.Reads (Lines.cut content).complete replay.commands :=
      (Journal.replay_eq_ok_iff path rfl).mp ⟨replay.notices, h⟩
    refine hreads.records.imp fun line c ⟨record, hp, hj⟩ => ?_
    obtain ⟨z, hz, htime, hfits⟩ := Command.time_of_ofJson hj
    exact ⟨record, z, hp, hz, htime, hfits⟩

/-- A frame with the given number as its flags. -/
def flagged (number : String) : Bytes := utf8 ("\x7b\"flags\":" ++ number ++ "\x7d")

/-- A line of a journal with the given number as its time. -/
def timed (number : String) : Bytes := utf8 ("\x7b\"createdAtUnixNano\":" ++ number ++
  ",\"id\":\"a\",\"kind\":\"Restart\",\"targetInstanceId\":\"i\"\x7d")

theorem flags_and_time_changed :
    ((Frame.parse (flagged "4294967296")).toOption.bind (·.given? (utf8 "flags"))).bind whole? =
        some 4294967296 ∧
      (Reply.decode (flagged "4294967296")).toOption.map (·.flags) = some 0 ∧
      (Json.parse? (timed "9223372036854775808")).bind Command.recordedTime? = some (2 ^ 63) ∧
      ((Json.parse? (timed "9223372036854775808")).bind fun j => (Command.ofJson j).toOption).map
        (·.createdAt.toInt) = some (-2 ^ 63) ∧
      (Journal.readLine (timed "9223372036854775808") 1).toOption.map
        (·.map (·.createdAt.toInt)) = some (some (-2 ^ 63)) := by
  decide +kernel

/-- The command on such a line. -/
def timedCommand (createdAt : Instant) : Command :=
  ⟨utf8 "a", .restart, utf8 "i", .obj [], createdAt⟩

/-- Flags past the word are cut, a time that fits is kept, and in a journal the line is named that
has no time. -/
theorem numbers_of_sample_kept :
    (∃ z, (Json.unsigned 4294967297).whole? = some z ∧ 0 ≤ z ∧
      ((1 : UInt32).toNat : ℤ) = z % 2 ^ 32 ∧ (((1 : UInt32).toNat : ℤ) = z ↔ z < 2 ^ 32)) ∧
    (∃ cause, Reply.decode (flagged "-1") = .error cause ∧ cause.fault = .protocol cause.message) ∧
    (∃ z, Command.recordedTime? (timedCommand (-1)).toJson = some z ∧
      (Int64.toInt (-1) = z ↔ z < 2 ^ 63)) ∧
    ({ path := utf8 "j", entry := .file (Lines.join [timed "1", [], utf8 "\x7b\x7d"]) } :
      Journal).replay = .error (.invalid 3 .missingFields) := by
  let content := Lines.join [timed "1", [], utf8 "\x7b\x7d"]
  obtain ⟨hflags, -, htime, -, -, -, hjournal⟩ :=
    numbers_kept_iff_fit (flagged "4294967297") (utf8 "j") content (timedCommand (-1)).toJson
  obtain ⟨hsigned, -⟩ := numbers_kept_iff_fit (flagged "-1") [] [] .null
  refine ⟨?_, ?_, ?_, ?_⟩
  · exact (hflags (.obj [(utf8 "flags", .unsigned 4294967297)]) (.unsigned 4294967297) rfl rfl).1
      { flags := 1 } rfl
  · refine (hsigned (.obj [(utf8 "flags", .signed (-1))]) (.signed (-1)) rfl rfl).2 fun z hz => ?_
    cases hz
    decide
  · obtain ⟨z, hz, -, hfits, -⟩ := htime (timedCommand (-1)) rfl
    exact ⟨z, hz, hfits⟩
  · have hcut : (Lines.cut content).complete = [timed "1", []] ++ utf8 "\x7b\x7d" :: [] := by
      decide +kernel
    have hfirst (number : ℕ) : Journal.readLine (timed "1") number = .ok (some (timedCommand 1)) :=
      rfl
    have hblank (number : ℕ) : Journal.readLine [] number = .ok none := rfl
    have hreads : Journal.Reads [timed "1", []] [timedCommand 1] :=
      .line hfirst (.line hblank .nil)
    exact hjournal _ _ _ _ (.obj []) hcut hreads rfl rfl rfl

end FleetControl
