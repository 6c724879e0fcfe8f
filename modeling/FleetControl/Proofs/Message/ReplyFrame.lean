import FleetControl.Proofs.Command.Record
import FleetControl.Proofs.Json.ReadBack
import FleetControl.Proofs.Message.AgentFrame
import FleetControl.Proofs.Session.Writing

/-!
# Frames of answers — what an agent hears

An answer is written as a record (`Reply.toJson_eq_record`), and every answer can be read back from
its frame, whatever bytes stand in it: an agent hears it with its texts repaired (`Reply.heard`,
`Reply.decode_encode`).  If there is nothing to repair, that is the same answer (`Reply.IsPlain.same_heard`).
No line feed stands in a frame, so the frames of a stream of answers are found again at its line
feeds (`Reply.frames_in_stream`).
-/

namespace FleetControl

variable {j : Json}

theorem CommandKind.repair_name (k : CommandKind) : Utf8.repair k.name = k.name :=
  Utf8.repair_of_valid (by cases k <;> decide)

theorem ReplyErrorKind.repair_name (k : ReplyErrorKind) : Utf8.repair k.name = k.name :=
  Utf8.repair_of_valid (by cases k <;> decide)

/-- The name of an error is read back as the error. -/
theorem ReplyErrorKind.ofName?_name (k : ReplyErrorKind) : ofName? k.name = some k := by
  cases k <;> decide

/-! ### Parts of answers -/

namespace PushedConfig

variable {c : PushedConfig}

/-- A configuration as it is read back. -/
def heard (c : PushedConfig) : PushedConfig :=
  ⟨Utf8.repair c.body, Utf8.repair c.contentType, Utf8.repair c.hash⟩

/-- All texts of a configuration are well-formed. -/
structure IsText (c : PushedConfig) : Prop where
  body : Utf8.valid c.body = true
  contentType : Utf8.valid c.contentType = true
  hash : Utf8.valid c.hash = true

/-- A configuration that is well formed is heard as it was sent. -/
theorem IsText.heard_eq (h : c.IsText) : c.heard = c := by
  rw [heard, Utf8.repair_of_valid h.body, Utf8.repair_of_valid h.contentType,
    Utf8.repair_of_valid h.hash]

/-- The members of a configuration. -/
def fields (c : PushedConfig) : List (Bytes × Option Json) :=
  [(utf8 "body", some (.str c.body)), (utf8 "contentType", some (.str c.contentType)),
    (utf8 "configHash", some (.str c.hash))]

theorem get?_toJson (c : PushedConfig) (key : Bytes) :
    c.toJson.get? key = (c.fields.lookup key).join := by
  have hnames : [utf8 "body", utf8 "contentType", utf8 "configHash"].Nodup := by decide
  exact Json.get?_record c.fields hnames key

theorem reread_toJson (c : PushedConfig) : c.toJson.reread = c.heard.toJson :=
  @Json.reread_record c.fields rfl

/-- A configuration is read back as it was written. -/
theorem readConfig_of_get? {c? : Option PushedConfig}
    (h : j.get? (utf8 "remoteConfig") = c?.map toJson) : Reply.readConfig j = .ok c? := by
  cases c? with
  | none =>
      rw [Reply.readConfig, Frame.object?, Json.given?_of_none h]
      rfl
  | some c =>
      have hbody : Frame.text? c.toJson (utf8 "body") = .ok (some c.body) :=
        Frame.text?_of_get? (c.get?_toJson _)
      have htype : Frame.text? c.toJson (utf8 "contentType") = .ok (some c.contentType) :=
        Frame.text?_of_get? (c.get?_toJson _)
      have hhash : Frame.text? c.toJson (utf8 "configHash") = .ok (some c.hash) :=
        Frame.text?_of_get? (c.get?_toJson _)
      have hobject : Frame.object? j (utf8 "remoteConfig") = .ok (some c.toJson) :=
        Frame.object?_of_get? h rfl
      simp only [Reply.readConfig, hobject, bind, Except.bind, hbody, htype, hhash]
      rfl

end PushedConfig

namespace ReplyError

variable {e : ReplyError}

/-- An error as it is read back. -/
def heard (e : ReplyError) : ReplyError := ⟨e.kind, Utf8.repair e.message⟩

/-- The members of an error. -/
def fields (e : ReplyError) : List (Bytes × Option Json) :=
  [(utf8 "type", some (.str e.kind.name)), (utf8 "message", some (.str e.message))]

theorem get?_toJson (e : ReplyError) (key : Bytes) :
    e.toJson.get? key = (e.fields.lookup key).join := by
  have hnames : [utf8 "type", utf8 "message"].Nodup := by decide
  exact Json.get?_record e.fields hnames key

theorem reread_toJson (e : ReplyError) : e.toJson.reread = e.heard.toJson := by
  have hkind : (Json.str e.kind.name).reread = .str e.kind.name :=
    congrArg Json.str e.kind.repair_name
  have hrecord := @Json.reread_record e.fields rfl
  simp only [fields, List.map_cons, List.map_nil, Option.map_some, hkind] at hrecord
  exact hrecord

/-- An error is read back as it was written. -/
theorem readError_of_get? {e? : Option ReplyError}
    (h : j.get? (utf8 "errorResponse") = e?.map toJson) : Reply.readError j = .ok e? := by
  cases e? with
  | none =>
      rw [Reply.readError, Frame.object?, Json.given?_of_none h]
      rfl
  | some e =>
      have hkind : Frame.text? e.toJson (utf8 "type") = .ok (some e.kind.name) :=
        Frame.text?_of_get? (e.get?_toJson _)
      have hmessage : Frame.text? e.toJson (utf8 "message") = .ok (some e.message) :=
        Frame.text?_of_get? (e.get?_toJson _)
      have hobject : Frame.object? j (utf8 "errorResponse") = .ok (some e.toJson) :=
        Frame.object?_of_get? h rfl
      simp only [Reply.readError, hobject, bind, Except.bind, hkind, hmessage,
        ReplyErrorKind.ofName?_name]
      rfl

end ReplyError

namespace Delivery

variable {d d' : Delivery}

/-- A command as it is read back. -/
def heard (d : Delivery) : Delivery := ⟨Utf8.repair d.id, d.kind, d.data.reread⟩

/-- The members of a command. -/
def fields (d : Delivery) : List (Bytes × Option Json) :=
  [(utf8 "id", some (.str d.id)), (utf8 "kind", some (.str d.kind.name)),
    (utf8 "data", some d.data)]

theorem get?_toJson (d : Delivery) (key : Bytes) :
    d.toJson.get? key = (d.fields.lookup key).join := by
  have hnames : [utf8 "id", utf8 "kind", utf8 "data"].Nodup := by decide
  exact Json.get?_record d.fields hnames key

theorem reread_toJson (d : Delivery) : d.toJson.reread = d.heard.toJson := by
  have hkind : (Json.str d.kind.name).reread = .str d.kind.name :=
    congrArg Json.str d.kind.repair_name
  have hrecord := @Json.reread_record d.fields rfl
  simp only [fields, List.map_cons, List.map_nil, Option.map_some, hkind] at hrecord
  exact hrecord

/-- A command is read back as it was written. -/
theorem readDelivery_toJson (d : Delivery) : Reply.readDelivery d.toJson = .ok d := by
  have hid : Frame.text? d.toJson (utf8 "id") = .ok (some d.id) :=
    Frame.text?_of_get? (d.get?_toJson _)
  have hkind : Frame.text? d.toJson (utf8 "kind") = .ok (some d.kind.name) :=
    Frame.text?_of_get? (d.get?_toJson _)
  have hdata : d.toJson.get? (utf8 "data") = some d.data := d.get?_toJson _
  have hobject : d.toJson.isObject = true := rfl
  simp only [Reply.readDelivery, hobject, hid, hkind, CommandKind.ofName?_name, hdata]
  rfl

/-- Commands are read back as they were written, none if they are absent. -/
theorem readCommands_of_get? {ds : List Delivery}
    (h : j.get? (utf8 "commands") = if ds.isEmpty then none else some (.arr (ds.map toJson))) :
    Reply.readCommands j = .ok ds := by
  rw [Reply.readCommands]
  cases ds with
  | nil => rw [Json.given?_of_none h]
  | cons d rest =>
      rw [Json.given?_of_get? h rfl]
      exact mapM_map_eq_self fun d _ => d.readDelivery_toJson

/-- The commands are equal, however the whole numbers in their data are held. -/
structure Same (d d' : Delivery) : Prop where
  id : d.id = d'.id
  kind : d.kind = d'.kind
  data : d.data.Same d'.data

/-- All texts of a command are well-formed, its doubles are finite, and the members of its data are
in key order. -/
structure IsPlain (d : Delivery) : Prop where
  id : Utf8.valid d.id = true
  data : d.data.isText = true
  isFinite : ∀ x ∈ d.data.doubles, x.isFinite = true
  isOrdered : d.data.IsOrdered

/-- A plain command is heard as it was sent. -/
theorem IsPlain.same_heard (h : d.IsPlain) : d.heard.Same d :=
  ⟨Utf8.repair_of_valid h.id, rfl, Json.same_reread h.data h.isFinite h.isOrdered⟩

end Delivery

/-! ### Answers -/

namespace Reply

variable {r r' : Reply}

/-- An answer as an agent hears it. -/
def heard (r : Reply) : Reply where
  instanceId := Utf8.repair r.instanceId
  remoteConfig := r.remoteConfig.map PushedConfig.heard
  commands := r.commands.map Delivery.heard
  error := r.error.map ReplyError.heard
  flags := r.flags

/-- The members of a frame, those included that an answer lacks. -/
def fields (r : Reply) : List (Bytes × Option Json) :=
  [(utf8 "instanceId", some (.str r.instanceId)),
    (utf8 "flags", some (.ofNat r.flags.toNat)),
    (utf8 "remoteConfig", r.remoteConfig.map PushedConfig.toJson),
    (utf8 "commands",
      if r.commands.isEmpty then none else some (.arr (r.commands.map Delivery.toJson))),
    (utf8 "errorResponse", r.error.map ReplyError.toJson)]

theorem toJson_eq_record (r : Reply) : r.toJson = .record r.fields := by
  simp only [toJson, Json.record, Json.present, fields, List.flatMap_cons, List.flatMap_nil,
    Option.map_map, Option.map_some, Option.toList_some, Json.ite_member, List.append_nil,
    List.append_assoc]
  rfl

theorem get?_toJson (r : Reply) (key : Bytes) :
    r.toJson.get? key = (r.fields.lookup key).join := by
  have hnames : [utf8 "instanceId", utf8 "flags", utf8 "remoteConfig", utf8 "commands",
      utf8 "errorResponse"].Nodup := by decide
  rw [toJson_eq_record, Json.get?_record r.fields hnames]

/-- Flags are read back as they were written. -/
theorem readFlags_of_get? {n : UInt32} (h : j.get? (utf8 "flags") = some (.ofNat n.toNat)) :
    readFlags j = .ok n := by
  have hword : (UInt64.ofNat n.toNat).toUInt32 = n := by
    rw [← UInt32.toNat_inj, UInt64.toNat_toUInt32, UInt64.toNat_ofNat']
    have hlt := n.toNat_lt
    omega
  rw [readFlags, Json.given?_of_get? h rfl, Json.ofNat]
  exact congrArg Except.ok hword

/-- What stands in the fields of an answer is read as the answer. -/
theorem ofJson_toJson (r : Reply) : ofJson r.toJson = .ok r := by
  have hid : Frame.text? r.toJson (utf8 "instanceId") = .ok (some r.instanceId) :=
    Frame.text?_of_get? (r.get?_toJson _)
  have hconfig := PushedConfig.readConfig_of_get? (r.get?_toJson (utf8 "remoteConfig"))
  have hcommands := Delivery.readCommands_of_get? (r.get?_toJson (utf8 "commands"))
  have herror := ReplyError.readError_of_get? (r.get?_toJson (utf8 "errorResponse"))
  have hflags := readFlags_of_get? (r.get?_toJson (utf8 "flags"))
  simp only [ofJson, hid, hconfig, hcommands, herror, hflags]
  rfl

theorem reread_toJson (r : Reply) : r.toJson.reread = r.heard.toJson := by
  have hconfig : Json.reread ∘ PushedConfig.toJson = PushedConfig.toJson ∘ PushedConfig.heard :=
    funext PushedConfig.reread_toJson
  have herror : Json.reread ∘ ReplyError.toJson = ReplyError.toJson ∘ ReplyError.heard :=
    funext ReplyError.reread_toJson
  have hdelivery : Json.reread ∘ Delivery.toJson = Delivery.toJson ∘ Delivery.heard :=
    funext Delivery.reread_toJson
  have hcommands : (Json.arr (r.commands.map Delivery.toJson)).reread =
      .arr ((r.commands.map Delivery.heard).map Delivery.toJson) := by
    rw [Json.reread_arr, List.map_map, List.map_map, hdelivery]
  have hfields : r.fields.map (fun e => (e.1, e.2.map Json.reread)) = r.heard.fields := by
    simp only [fields, heard, List.map_cons, List.map_nil, Option.map_map, hconfig, herror,
      apply_ite (Option.map Json.reread), Option.map_none, Option.map_some, hcommands,
      List.isEmpty_map]
    rfl
  rw [toJson_eq_record, toJson_eq_record, Json.reread_record rfl, hfields]

/-- Every answer is heard. -/
theorem decode_encode (r : Reply) : decode r.encode = .ok r.heard := by
  have hparse : Frame.parse r.encode = .ok r.heard.toJson := by
    refine Frame.parse_eq_ok_iff.mpr ⟨?_, rfl⟩
    rw [encode, Json.parse?_writeRepaired, reread_toJson]
  rw [decode, hparse]
  exact r.heard.ofJson_toJson

/-- The answers are equal, however the whole numbers in the data of commands are held. -/
structure Same (r r' : Reply) : Prop where
  instanceId : r.instanceId = r'.instanceId
  remoteConfig : r.remoteConfig = r'.remoteConfig
  commands : List.Forall₂ Delivery.Same r.commands r'.commands
  error : r.error = r'.error
  flags : r.flags = r'.flags

/-- All texts of an answer are well-formed, and the data of its commands is finite and in key
order. -/
structure IsPlain (r : Reply) : Prop where
  instanceId : Utf8.valid r.instanceId = true
  remoteConfig : ∀ c ∈ r.remoteConfig, c.IsText
  commands : ∀ d ∈ r.commands, d.IsPlain
  error : ∀ e ∈ r.error, Utf8.valid e.message = true

/-- An answer with nothing to repair is heard as it is. -/
theorem IsPlain.same_heard (h : r.IsPlain) : r.heard.Same r where
  instanceId := Utf8.repair_of_valid h.instanceId
  remoteConfig := by
    cases e : r.remoteConfig with
    | none => rw [heard, e]; rfl
    | some c => rw [heard, e, Option.map_some, (h.remoteConfig c e).heard_eq]
  commands := List.forall₂_map_left_iff.mpr
    (List.forall₂_same.mpr fun d hd => (h.commands d hd).same_heard)
  error := by
    cases e : r.error with
    | none => rw [heard, e]; rfl
    | some cause =>
        rw [heard, e, Option.map_some, ReplyError.heard, Utf8.repair_of_valid (h.error cause e)]
  flags := rfl

/-! ### Streams of answers -/

/-- No line break stands in a frame. -/
theorem not_mem_encode (r : Reply) : Lines.lineFeed ∉ r.encode ∧ 0x0d ∉ r.encode := by
  have hle : ∀ b ∈ r.encode, 0x20 ≤ b := r.toJson.repair.le_of_mem_write
  exact ⟨fun hm => absurd (hle _ hm) (by decide), fun hm => absurd (hle _ hm) (by decide)⟩

/-- Replies are lines: none has a line feed in it. -/
theorem clean_encode (rs : List Reply) : Lines.Clean (rs.map encode) :=
  List.forall_mem_map.mpr fun r _ => r.not_mem_encode.1

/-- Whatever bytes stand in an answer, its frame is one line and is read.  A stream of frames is cut
at its line feeds into those that were written as a whole, and these are all of them if the
transport does not fail and makes headway often enough.  An answer with nothing to repair is read
as the same. -/
theorem frames_in_stream :
    (∀ r : Reply, Lines.lineFeed ∉ r.encode ∧ 0x0d ∉ r.encode ∧ decode r.encode = .ok r.heard) ∧
      (∀ (rs : List Reply) (answers : List Sent),
        let (stream, count) := LineWriter.writeFrames (rs.map encode) answers
        (Lines.cut stream).complete = (rs.take count).map encode ∧
          (count = rs.length → (Lines.cut stream).torn = []) ∧
          (.failed ∉ answers →
            (Lines.join (rs.map encode)).length ≤ answers.countP Sent.isProgress →
            count = rs.length)) ∧
      ∀ r : Reply, r.IsPlain → ∃ r', decode r.encode = .ok r' ∧ r'.Same r := by
  refine ⟨fun r => ⟨r.not_mem_encode.1, r.not_mem_encode.2, r.decode_encode⟩,
    fun rs answers => ?_, fun r h => ⟨r.heard, r.decode_encode, h.same_heard⟩⟩
  obtain ⟨hcomplete, hall⟩ := LineWriter.cut_writeFrames (clean_encode rs) answers
  rw [List.length_map] at hall
  refine ⟨hcomplete.trans (List.map_take).symm, fun h => by rw [hall h], fun hf h => ?_⟩
  exact (LineWriter.writeFrames_all hf h).trans (List.length_map _)

/-- An answer with a configuration, an error and commands, one of them without data, and an answer
that is written seven bytes at a time. -/
theorem same_answer_in_stream :
    let r : Reply :=
      { instanceId := utf8 "a"
        remoteConfig := some ⟨utf8 "x: 1\n", utf8 "text/yaml", utf8 "h"⟩
        commands := [⟨utf8 "c", .restart, .null⟩,
          ⟨utf8 "d", .updateAgentConfig, .obj [(utf8 "k", .arr [.signed 5, .bool true])]⟩]
        error := some ⟨.unavailable, utf8 "later"⟩
        flags := 4294967295 }
    let answers := .interrupted :: List.replicate 28 (.taken 7)
    (∃ r', decode r.encode = .ok r' ∧ r'.Same r) ∧
      (LineWriter.writeFrames [encode {}] answers).2 = 1 := by
  have hstream := frames_in_stream.2.1 [{}] (.interrupted :: List.replicate 28 (.taken 7))
  refine ⟨frames_in_stream.2.2 _ ⟨by decide, ?_, ?_, ?_⟩,
    hstream.2.2 (by decide) (by decide +kernel)⟩
  · rintro c ⟨⟩
    exact ⟨by decide, by decide, by decide⟩
  · have hitems : ∀ v ∈ [Json.signed 5, .bool true], v.IsOrdered :=
      List.forall_mem_cons.mpr ⟨.signed 5, List.forall_mem_singleton.mpr (.bool true)⟩
    refine List.forall_mem_cons.mpr ⟨⟨by decide, by decide, by decide, .null⟩,
      List.forall_mem_singleton.mpr ⟨by decide, by decide, by decide, .obj ?_ ?_⟩⟩
    · exact List.pairwise_singleton _ _
    · exact List.forall_mem_singleton.mpr (.arr hitems)
  · rintro e ⟨⟩
    decide

end Reply

end FleetControl
