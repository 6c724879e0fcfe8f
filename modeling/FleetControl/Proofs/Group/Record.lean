import FleetControl.Group.Record
import FleetControl.Proofs.Attributes
import FleetControl.Proofs.Json.Object

/-!
# Groups as JSON — what is read of what was written

A group is written as a record (`Group.members_eq`) and read field by field.  Every field that a client
may set is read back as it was written, given that the priority is not negative; conditions and the
marks of a deletion are not read, nor is a status that stands beside them (`Group.ofJson_record`).
-/

namespace FleetControl.Group

variable {g : Group} {j : Json}

/-! ### Groups as records -/

/-- The members of a configuration. -/
def configFields (config : RemoteConfig) : List (Bytes × Option Json) :=
  [(utf8 "body", some (.str config.body)), (utf8 "contentType", some (.str config.contentType))]

/-- The members of a group, and a status that may stand beside them. -/
def fields (g : Group) (status : Option Json) : List (Bytes × Option Json) :=
  [(utf8 "name", some (.str g.name)), (utf8 "priority", some (.ofInt64 g.priority.toInt64)),
    (utf8 "attributes", some g.attributes.toJson), (utf8 "selector", some g.selector.toJson),
    (utf8 "conditions", some (.arr (g.conditions.toList.map fun (kind, c) => c.toJson kind))),
    (utf8 "remoteConfig", g.remoteConfig.map fun config => Json.record (configFields config)),
    (utf8 "deletedAtUnixNano", g.deletedAt?.map .ofInt64),
    (utf8 "deletedBy", g.deletedBy?.map .str), (utf8 "status", status)]

theorem members_eq (g : Group) (status : Option Json) :
    g.members ++ (status.map (utf8 "status", ·)).toList = Json.present (g.fields status) := by
  rw [members, optionalMembers, Json.present, fields, deletedAt?, deletedBy?]
  cases g.remoteConfig <;> cases g.lifecycle <;> cases status <;> rfl

/-- What is found in a group under a name is its field. -/
theorem get?_record (g : Group) (status : Option Json) (key : Bytes) :
    (Json.record (g.fields status)).get? key = ((g.fields status).lookup key).join := by
  have hnames : [utf8 "name", utf8 "priority", utf8 "attributes", utf8 "selector",
      utf8 "conditions", utf8 "remoteConfig", utf8 "deletedAtUnixNano", utf8 "deletedBy",
      utf8 "status"].Nodup := by decide
  exact Json.get?_record (g.fields status) hnames key

theorem toJson_eq_record (g : Group) : g.toJson = Json.record (g.fields none) :=
  congrArg Json.object ((List.append_nil _).symm.trans (g.members_eq none))

/-! ### Reading -/

theorem isNull_ofInt64 (n : Int64) : (Json.ofInt64 n).isNull = false := by
  rw [Json.ofInt64]
  split <;> rfl

theorem readPriority_of_get? {n : Int32}
    (h : j.get? (utf8 "priority") = some (.ofInt64 n.toInt64)) (hn : 0 ≤ n) :
    readPriority j = .ok n := by
  have hnonneg : 0 ≤ n.toInt := by simpa using Int32.le_iff_toInt_le.mp hn
  have hlt : n.toInt < 2147483648 := n.toInt_lt
  have hrange : (n.toInt64 < 0 || Int32.maxValue.toInt64 < n.toInt64) = false := by
    rw [Bool.or_eq_false_iff, decide_eq_false_iff_not, decide_eq_false_iff_not,
      Int64.lt_iff_toInt_lt, Int64.lt_iff_toInt_lt, Int32.toInt_toInt64]
    exact ⟨Int.not_lt.mpr hnonneg, Int.not_lt.mpr (Int.le_of_lt_add_one hlt)⟩
  rw [readPriority, Json.given?_of_get? h (isNull_ofInt64 _)]
  simp only [Json.int64?_ofInt64, hrange, Bool.false_eq_true, if_false, Int32.toInt32_toInt64]

theorem readAttributes_of_get? {attrs : Attributes} {field : Bytes}
    (h : j.get? field = some attrs.toJson) (path : Bytes) :
    readAttributes j field path = .ok attrs := by
  rw [readAttributes, Attributes.read_toJson h]
  rfl

theorem readSelector_of_get? {selector : Selector}
    (h : j.get? (utf8 "selector") = some selector.toJson) : readSelector j = .ok selector := by
  have hidentifying : selector.toJson.get? (utf8 "identifyingAttributes") =
      some selector.identifying.toJson := rfl
  have hnonIdentifying : selector.toJson.get? (utf8 "nonIdentifyingAttributes") =
      some selector.nonIdentifying.toJson := rfl
  rw [readSelector, Json.given?_of_get? h rfl]
  simp only [readAttributes_of_get? hidentifying, readAttributes_of_get? hnonIdentifying]
  rfl

theorem readRemoteConfig_of_get? {config? : Option RemoteConfig}
    (h : j.get? (utf8 "remoteConfig") =
      config?.map fun config => Json.record (configFields config)) :
    readRemoteConfig j = .ok config? := by
  cases config? with
  | none =>
      rw [readRemoteConfig, Json.given?_of_none h]
  | some config =>
      have hnames : [utf8 "body", utf8 "contentType"].Nodup := by decide
      have hget := Json.get?_record (configFields config) hnames
      have hbody : (Json.record (configFields config)).get? (utf8 "body") =
          some (.str config.body) := hget _
      have htype : (Json.record (configFields config)).given? (utf8 "contentType") =
          some (.str config.contentType) := Json.given?_of_get? (hget _) rfl
      rw [readRemoteConfig, Json.given?_of_get? h rfl]
      simp only [hbody, htype]
      rfl

/-- What is fit to be kept has a priority that is read. -/
theorem priority_nonneg (h : g.validate = .ok ()) : 0 ≤ g.priority := by
  by_cases hp : g.priority < 0
  · rw [validate, if_pos hp] at h
    cases hn : checkName g.name <;> rw [hn] at h <;> cases h
  · exact Int32.not_lt.mp hp

/-- A group is read from what was written of it as an active group without conditions. -/
theorem ofJson_record (h : 0 ≤ g.priority) (status : Option Json) :
    ofJson (Json.record (g.fields status)) =
      .ok { g with conditions := {}, lifecycle := .active } := by
  have hname : (Json.record (g.fields status)).get? (utf8 "name") = some (.str g.name) :=
    g.get?_record status _
  have hpriority := readPriority_of_get? (g.get?_record status _) h
  have hattributes : readAttributes (Json.record (g.fields status)) (utf8 "attributes")
      (utf8 "attributes") = .ok g.attributes := readAttributes_of_get? (g.get?_record status _) _
  have hselector := readSelector_of_get? (g.get?_record status _)
  have hconfig := readRemoteConfig_of_get? (g.get?_record status _)
  rw [ofJson, hname]
  simp only [Option.bind_some, Json.str?, hpriority, hattributes, hselector, hconfig]
  rfl

end FleetControl.Group
