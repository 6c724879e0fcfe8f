import FleetControl.Command.Journal
import FleetControl.Proofs.Json.Reader

/-!
# Commands as JSON — what a record reads back as

A command that is written and read back has its data settled (`Command.settle`) and is the same in
every other part: `ofJson_toJson` for values and `readLine_write` for the lines of a journal.
-/

namespace FleetControl

theorem CommandKind.ofName?_name (k : CommandKind) : ofName? k.name = some k := by
  cases k <;> decide

namespace Command

/-- What is read back of a command that was written. -/
def settle (c : Command) : Command := { c with data := c.data.settle }

@[simp] theorem settle_id (c : Command) : c.settle.id = c.id := rfl

@[simp] theorem settle_target (c : Command) : c.settle.target = c.target := rfl

@[simp] theorem settle_createdAt (c : Command) : c.settle.createdAt = c.createdAt := rfl

@[simp] theorem settle_orderKey (c : Command) : c.settle.orderKey = c.orderKey := rfl

theorem settle_settle (c : Command) : c.settle.settle = c.settle := by
  simp only [settle, Json.settle_settle]

theorem toJson_eq (c : Command) : c.toJson = .obj [
    (utf8 "createdAtUnixNano", .ofInt64 c.createdAt),
    (utf8 "data", c.data),
    (utf8 "id", .str c.id),
    (utf8 "kind", .str c.kind.name),
    (utf8 "targetInstanceId", .str c.target)] := rfl

theorem settle_toJson (c : Command) : c.toJson.settle = c.settle.toJson := by
  rw [toJson_eq, Json.settle_obj]
  simp only [List.map_cons, List.map_nil, Json.settle_ofInt64]
  rfl

theorem doubles_toJson (c : Command) : c.toJson.doubles = c.data.doubles := by
  have h : (Json.ofInt64 c.createdAt).doubles = [] := by
    rw [Json.ofInt64]
    split <;> rfl
  rw [toJson_eq, Json.doubles_obj]
  simp [h, Json.doubles]

/-- A record is the record of its command. -/
theorem ofJson_toJson (c : Command) : ofJson c.toJson = .ok c := by
  have hid : c.toJson.get? (utf8 "id") = some (.str c.id) := rfl
  have hkind : c.toJson.get? (utf8 "kind") = some (.str c.kind.name) := rfl
  have htarget : c.toJson.get? (utf8 "targetInstanceId") = some (.str c.target) := rfl
  have hdata : c.toJson.get? (utf8 "data") = some c.data := rfl
  have htime : c.toJson.get? (utf8 "createdAtUnixNano") = some (.ofInt64 c.createdAt) := rfl
  have hobject : c.toJson.isObject = true := rfl
  have hname : kindOfName c.kind.name = .ok c.kind := by
    rw [kindOfName, CommandKind.ofName?_name]
  simp only [ofJson, hobject, textField, hid, hkind, htarget, hdata, htime, Option.bind_some,
    Json.str?, Json.int64?_ofInt64, Option.getD_some, bind, Except.bind, pure, Except.pure, hname,
    Bool.not_true, Bool.false_eq_true, if_false]

end Command

/-! ### Lines of a journal -/

namespace Journal

variable {c : Command} {line : Bytes}

theorem line?_eq_some : line? c = some line ↔
    c.toJson.isText = true ∧ line = c.toJson.write ++ [Lines.lineFeed] := by
  rw [line?, Json.write?]
  split
  · rename_i h
    simp [h, eq_comm]
  · rename_i h
    simp [h]

/-- No line feed stands inside the line of a command. -/
theorem lineFeed_not_mem_write (j : Json) : Lines.lineFeed ∉ j.write := fun h =>
  absurd (j.le_of_mem_write _ h) (by decide)

/-- The line of a command reads back as the command, settled. -/
theorem readLine_write (ht : c.toJson.isText = true) (hl : c.data.IsLegible) (number : ℕ) :
    readLine c.toJson.write number = .ok (some c.settle) := by
  have hlegible : c.toJson.IsLegible := by
    rw [Json.IsLegible, c.doubles_toJson]
    exact hl
  have hne : c.toJson.write.isEmpty = false := by
    rw [c.toJson_eq, Json.write_obj]
    rfl
  rw [readLine, hne, if_neg Bool.false_ne_true, Json.parse?_write ht hlegible, c.settle_toJson]
  simp only [Command.ofJson_toJson]

end Journal

end FleetControl
