import FleetControl.Message.Frame
import FleetControl.Proofs.Attributes
import FleetControl.Proofs.Json.Made

/-!
# Frames of messages — what an agent says is what is heard

A message is written as a record (`AgentMessage.toJson_eq_record`), and what is read from its frame
is the message itself, with every member as lacking, empty or full as it was.  Whatever frame a
message is read from, it names its instance and its text is well-formed (`AgentMessage.ofJson_sound`),
so the messages that come in frames are exactly those that can be written and read back.
-/

namespace FleetControl

namespace Frame

variable {j : Json} {field : Bytes}

/-- A frame has to be a JSON object. -/
theorem parse_eq_ok_iff {frame : Bytes} : parse frame = .ok j ↔
    Json.parse? frame = some j ∧ j.isObject = true := by
  rw [parse]
  cases Json.parse? frame with
  | none => simp
  | some v =>
      by_cases hv : v.isObject = true
      · simp only [if_pos hv, Except.ok.injEq, Option.some.injEq]
        exact ⟨fun h => ⟨h, h ▸ hv⟩, And.left⟩
      · simp only [if_neg hv, reduceCtorEq, Option.some.injEq, false_iff, not_and]
        exact fun h => h ▸ hv

/-- A text is read back as it was written. -/
theorem text?_of_get? {s? : Option Bytes} (h : j.get? field = s?.map .str) :
    text? j field = .ok s? := by
  cases s? with
  | none => rw [text?, Json.given?_of_none h]
  | some s => rw [text?, Json.given?_of_get? h rfl]

/-- Whatever is read as text is well formed. -/
theorem valid_of_text? (hj : j.isText = true) {s : Bytes} (h : text? j field = .ok (some s)) :
    Utf8.valid s = true := by
  rw [text?] at h
  split at h
  · cases h
  · rename_i t hg
    cases h
    exact Json.isText_of_get? hj (Json.get?_of_given? hg)
  · cases h

theorem object?_of_get? {v : Json} (h : j.get? field = some v) (hv : v.isObject = true) :
    object? j field = .ok (some v) := by
  have hnull : v.isNull = false := by cases v <;> first | rfl | cases hv
  rw [object?, Json.given?_of_get? h hnull]
  exact if_pos hv

/-- The strings of an object within are well formed. -/
theorem isText_of_object? (hj : j.isText = true) {v : Json} (h : object? j field = .ok (some v)) :
    v.isText = true := by
  rw [object?] at h
  split at h
  · cases h
  · rename_i w hg
    split at h
    · cases h
      exact Json.isText_of_get? hj (Json.get?_of_given? hg)
    · cases h

/-- Attributes are read back as they were written. -/
theorem readAttributes_of_get? {attrs : Attributes} (h : j.get? field = some attrs.toJson) :
    readAttributes j field = .ok attrs := by
  rw [readAttributes, Attributes.read_toJson h]
  rfl

/-- The attributes that are read are well formed. -/
theorem isText_of_readAttributes (hj : j.isText = true) {attrs : Attributes}
    (h : readAttributes j field = .ok attrs) : attrs.IsText := by
  rw [readAttributes] at h
  cases e : Attributes.read j field field with
  | error => rw [e] at h; cases h
  | ok a =>
      rw [e] at h
      cases h
      exact Attributes.isText_of_read hj e

end Frame

/-! ### Descriptions -/

namespace Description

/-- All names and texts of a description are well-formed. -/
structure IsText (d : Description) : Prop where
  identifying : d.identifying.IsText
  nonIdentifying : d.nonIdentifying.IsText

/-- The members of a description. -/
def fields (d : Description) : List (Bytes × Option Json) :=
  [(utf8 "identifyingAttributes", some d.identifying.toJson),
    (utf8 "nonIdentifyingAttributes", some d.nonIdentifying.toJson)]

theorem toJson_eq_record (d : Description) : d.toJson = .record d.fields := rfl

/-- What stands under a key is what the field says, if it says anything. -/
theorem get?_toJson (d : Description) (key : Bytes) :
    d.toJson.get? key = (d.fields.lookup key).join := by
  have hnames : [utf8 "identifyingAttributes", utf8 "nonIdentifyingAttributes"].Nodup := by decide
  rw [toJson_eq_record, Json.get?_record d.fields hnames]

/-- A description that is well formed is the same after it was written and read. -/
theorem reread_toJson {d : Description} (h : d.IsText) : d.toJson.reread = d.toJson := by
  have hfields : d.fields.map (fun e => (e.1, e.2.map Json.reread)) = d.fields := by
    simp only [fields, List.map_cons, List.map_nil, Option.map_some,
      Attributes.reread_toJson h.identifying, Attributes.reread_toJson h.nonIdentifying]
  rw [toJson_eq_record, Json.reread_record rfl, hfields]

end Description

namespace AgentMessage

variable {m : AgentMessage}

/-- All text in a message is well-formed. -/
structure IsText (m : AgentMessage) : Prop where
  instanceId : Utf8.valid m.instanceId = true
  description : ∀ d ∈ m.description, d.IsText
  configHash : ∀ hash ∈ m.configHash, Utf8.valid hash = true
  acknowledged : ∀ id ∈ m.acknowledged, Utf8.valid id = true

/-- The members of a frame, those included that a message lacks. -/
def fields (m : AgentMessage) : List (Bytes × Option Json) :=
  [(utf8 "instanceId", some (.str m.instanceId)),
    (utf8 "agentDescription", m.description.map Description.toJson),
    (utf8 "reportedConfigHash", m.configHash.map .str),
    (utf8 "sequenceNum", m.sequenceNum.map .unsigned),
    (utf8 "acknowledgedCommandIds",
      if m.acknowledged.isEmpty then none else some (.arr (m.acknowledged.map .str)))]

theorem toJson_eq_record (m : AgentMessage) : m.toJson = .record m.fields := by
  simp only [toJson, Json.record, Json.present, fields, List.flatMap_cons, List.flatMap_nil,
    Option.map_map, Option.map_some, Option.toList_some, Json.ite_member, List.append_nil,
    List.append_assoc]
  rfl

theorem get?_toJson (m : AgentMessage) (key : Bytes) :
    m.toJson.get? key = (m.fields.lookup key).join := by
  have hnames : [utf8 "instanceId", utf8 "agentDescription", utf8 "reportedConfigHash",
      utf8 "sequenceNum", utf8 "acknowledgedCommandIds"].Nodup := by decide
  rw [toJson_eq_record, Json.get?_record m.fields hnames]

theorem reread_toJson (h : m.IsText) : m.toJson.reread = m.toJson := by
  have hid := Json.reread_str h.instanceId
  have hdescription : m.description.map (Json.reread ∘ Description.toJson) =
      m.description.map Description.toJson :=
    Option.map_congr fun d hd => Description.reread_toJson (h.description d hd)
  have hhash : m.configHash.map (Json.reread ∘ Json.str) = m.configHash.map Json.str :=
    Option.map_congr fun hash hh => Json.reread_str (h.configHash hash hh)
  have hsequence : Json.reread ∘ Json.unsigned = Json.unsigned := rfl
  have hacknowledged : (Json.arr (m.acknowledged.map .str)).reread =
      .arr (m.acknowledged.map .str) := by
    rw [Json.reread_arr, List.map_map]
    exact congrArg Json.arr (List.map_congr_left fun id hm => Json.reread_str (h.acknowledged id hm))
  have hfields : m.fields.map (fun e => (e.1, e.2.map Json.reread)) = m.fields := by
    simp only [fields, List.map_cons, List.map_nil, Option.map_map, Option.map_some, hid,
      hdescription, hhash, hsequence, apply_ite (Option.map Json.reread), Option.map_none,
      hacknowledged]
  rw [toJson_eq_record, Json.reread_record rfl, hfields]

/-! ### Reading -/

section Reading

variable {j : Json}

/-- A description is read back as it was written. -/
theorem readDescription_of_get? {d? : Option Description}
    (h : j.get? (utf8 "agentDescription") = d?.map Description.toJson) :
    readDescription j = .ok d? := by
  cases d? with
  | none =>
      rw [readDescription, Frame.object?, Json.given?_of_none h]
      rfl
  | some d =>
      have hidentifying := Frame.readAttributes_of_get? (d.get?_toJson
        (utf8 "identifyingAttributes"))
      have hnonIdentifying := Frame.readAttributes_of_get? (d.get?_toJson
        (utf8 "nonIdentifyingAttributes"))
      have hparts : readDescription j = (do
          let identifying ← Frame.readAttributes d.toJson (utf8 "identifyingAttributes")
          let nonIdentifying ← Frame.readAttributes d.toJson (utf8 "nonIdentifyingAttributes")
          return some { identifying, nonIdentifying }) := by
        rw [readDescription, Frame.object?_of_get? h rfl]
        rfl
      rw [hparts, hidentifying, hnonIdentifying]
      rfl

/-- A sequence number is read back as it was written. -/
theorem readSequence_of_get? {n? : Option UInt64}
    (h : j.get? (utf8 "sequenceNum") = n?.map .unsigned) : readSequence j = .ok n? := by
  cases n? with
  | none => rw [readSequence, Json.given?_of_none h]
  | some n => rw [readSequence, Json.given?_of_get? h rfl]

/-- Acknowledged ids are read back as they were written, none if they are absent. -/
theorem readAcknowledged_of_get? {ids : List Bytes}
    (h : j.get? (utf8 "acknowledgedCommandIds") =
      if ids.isEmpty then none else some (.arr (ids.map .str))) :
    readAcknowledged j = .ok ids := by
  rw [readAcknowledged]
  cases ids with
  | nil => rw [Json.given?_of_none h]
  | cons id rest =>
      rw [Json.given?_of_get? h rfl]
      exact mapM_map_eq_self fun _ _ => rfl

/-- What stands in the fields of a message is read as the message. -/
theorem ofJson_toJson (h : m.instanceId ≠ []) : ofJson m.toJson = .ok m := by
  have hid : m.toJson.get? (utf8 "instanceId") = some (.str m.instanceId) := m.get?_toJson _
  have hdescription := readDescription_of_get? (m.get?_toJson (utf8 "agentDescription"))
  have hhash : Frame.text? m.toJson (utf8 "reportedConfigHash") = .ok m.configHash :=
    Frame.text?_of_get? (m.get?_toJson (utf8 "reportedConfigHash"))
  have hsequence := readSequence_of_get? (m.get?_toJson (utf8 "sequenceNum"))
  have hacknowledged := readAcknowledged_of_get? (m.get?_toJson (utf8 "acknowledgedCommandIds"))
  have hempty : m.instanceId.isEmpty = false := List.isEmpty_eq_false_iff.mpr h
  rw [ofJson, hid]
  simp only [Option.bind_some, Json.str?, hempty, hdescription, hhash, hsequence, hacknowledged]
  rfl

/-- The description that is read is well formed. -/
theorem isText_of_readDescription (hj : j.isText = true) {d : Description}
    (h : readDescription j = .ok (some d)) : d.IsText := by
  rw [readDescription] at h
  obtain ⟨o?, ho, h⟩ := exists_of_bind_eq_ok h
  cases o? with
  | none => cases h
  | some o =>
      have hotext := Frame.isText_of_object? hj ho
      obtain ⟨identifying, hidentifying, h⟩ := exists_of_bind_eq_ok h
      obtain ⟨nonIdentifying, hnonIdentifying, h⟩ := exists_of_bind_eq_ok h
      cases h
      exact ⟨Frame.isText_of_readAttributes hotext hidentifying,
        Frame.isText_of_readAttributes hotext hnonIdentifying⟩

/-- The ids that are read are well formed. -/
theorem valid_of_readAcknowledged (hj : j.isText = true) {ids : List Bytes}
    (h : readAcknowledged j = .ok ids) : ∀ id ∈ ids, Utf8.valid id = true := by
  rw [readAcknowledged] at h
  split at h
  · cases h
    exact List.forall_mem_nil _
  · rename_i items hg
    have hitems := (Json.allText_arr _ _).mp (Json.isText_of_get? hj (Json.get?_of_given? hg))
    intro id hid
    obtain ⟨v, hv, hread⟩ := exists_of_mem_mapM h hid
    cases v with
    | str s => cases hread; exact hitems _ hv
    | null | bool | unsigned | signed | double | arr | obj => cases hread
  · cases h

/-- A message that is read names its instance and holds well-formed text. -/
theorem ofJson_sound (hj : j.isText = true) (h : ofJson j = .ok m) :
    m.instanceId ≠ [] ∧ m.IsText := by
  rw [ofJson] at h
  split at h
  · cases h
  · rename_i instanceId hid
    obtain ⟨v, hv, hstr⟩ := Option.bind_eq_some_iff.mp hid
    split at h
    · cases h
    · rename_i hempty
      obtain ⟨description, hdescription, h⟩ := exists_of_bind_eq_ok h
      obtain ⟨configHash, hhash, h⟩ := exists_of_bind_eq_ok h
      obtain ⟨sequenceNum, -, h⟩ := exists_of_bind_eq_ok h
      obtain ⟨acknowledged, hacknowledged, h⟩ := exists_of_bind_eq_ok h
      cases h
      refine ⟨fun hnil => hempty (List.isEmpty_iff.mpr hnil), ?_, ?_, ?_, ?_⟩
      · cases v with
        | str s => cases hstr; exact Json.isText_of_get? hj hv
        | null | bool | unsigned | signed | double | arr | obj => cases hstr
      · rintro d rfl
        exact isText_of_readDescription hj hdescription
      · rintro hash rfl
        exact Frame.valid_of_text? hj hhash
      · exact valid_of_readAcknowledged hj hacknowledged

end Reading

/-! ### Frames -/

/-- The frame of a message is its JSON. -/
theorem parse?_encode (h : m.IsText) : Json.parse? m.encode = some m.toJson := by
  rw [encode, Json.parse?_writeRepaired, reread_toJson h]

/-- A message that names an instance and is well formed is read back from its frame. -/
theorem decode_encode (hid : m.instanceId ≠ []) (h : m.IsText) : decode m.encode = .ok m := by
  have hparse : Frame.parse m.encode = .ok m.toJson :=
    Frame.parse_eq_ok_iff.mpr ⟨parse?_encode h, rfl⟩
  rw [decode, hparse]
  exact ofJson_toJson hid

/-- What is decoded names an instance and is well formed. -/
theorem decode_sound {frame : Bytes} (h : decode frame = .ok m) :
    m.instanceId ≠ [] ∧ m.IsText := by
  obtain ⟨j, hj, hm⟩ := exists_of_bind_eq_ok h
  exact ofJson_sound (Json.isText_of_parse? (Frame.parse_eq_ok_iff.mp hj).1) hm

/-- The messages that frames hold are those that are read back from their own frame: those that
name their instance and hold well-formed text.  A frame that holds no message is a fault of
protocol. -/
theorem frames_hold_written_messages :
    (∀ m : AgentMessage, m.instanceId ≠ [] → m.IsText → decode m.encode = .ok m) ∧
      (∀ frame m, decode frame = .ok m →
        m.instanceId ≠ [] ∧ m.IsText ∧ decode m.encode = .ok m) ∧
      ∀ frame, (∀ m, decode frame ≠ .ok m) →
        ∃ cause, decode frame = .error cause ∧ cause.fault.kind = .protocol := by
  refine ⟨fun _ => decode_encode, fun _ _ h => ?_, fun frame h => ?_⟩
  · obtain ⟨hid, htext⟩ := decode_sound h
    exact ⟨hid, htext, decode_encode hid htext⟩
  · cases e : decode frame with
    | error cause => exact ⟨cause, rfl, rfl⟩
    | ok m => exact absurd e (h m)

/-- A message whose members are there but empty, with an id that is acknowledged twice, and a frame
in which spaces and a null stand. -/
theorem frame_holds_empty_members :
    let m : AgentMessage :=
      { instanceId := utf8 "a"
        description := some {}
        configHash := some []
        sequenceNum := some 18446744073709551615
        acknowledged := [utf8 "c", utf8 "c"] }
    let frame := utf8 "\x7b \"sequenceNum\": null, \"instanceId\": \"a\" \x7d"
    decode m.encode = .ok m ∧ decode frame = .ok { instanceId := utf8 "a" } := by
  have hempty : Attributes.IsText ∅ := fun _ _ hs => nomatch hs
  refine ⟨frames_hold_written_messages.1 _ (by decide) ⟨by decide, ?_, ?_, by decide⟩, ?_⟩
  · rintro d ⟨⟩
    exact ⟨hempty, hempty⟩
  · rintro hash ⟨⟩
    rfl
  · rfl

end AgentMessage

end FleetControl
