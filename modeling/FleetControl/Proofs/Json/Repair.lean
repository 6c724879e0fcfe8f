import FleetControl.Proofs.Bytes.Utf8
import FleetControl.Proofs.Json.Object
import FleetControl.Proofs.Json.Reader

/-!
# Repaired values — well-formed text in place of ill-formed

Repairing a value repairs its texts one by one and nothing else (`repair_arr`, `repair_obj`).  The
repaired value holds well-formed text only (`isText_repair`), and a value whose text is well-formed
stays as it is (`repair_of_isText`).
-/

namespace FleetControl.Json

theorem repairItems_eq (items done : List Json) :
    repairItems items done = done.reverse ++ items.map repair := by
  induction items generalizing done with
  | nil => rw [repairItems, List.map_nil, List.append_nil]
  | cons v rest ih => rw [repairItems, ih, List.reverse_cons, List.append_assoc]; rfl

theorem repair_arr (items : List Json) : (Json.arr items).repair = .arr (items.map repair) := by
  rw [repair, repairItems_eq]
  rfl

theorem repairMembers_eq (members done : List (Bytes × Json)) :
    repairMembers members done =
      done.reverse ++ members.map fun e => (Utf8.repair e.1, e.2.repair) := by
  induction members generalizing done with
  | nil => rw [repairMembers, List.map_nil, List.append_nil]
  | cons e rest ih => rw [repairMembers, ih, List.reverse_cons, List.append_assoc]; rfl

theorem repair_obj (members : List (Bytes × Json)) :
    (Json.obj members).repair = .obj (members.map fun e => (Utf8.repair e.1, e.2.repair)) := by
  rw [repair, repairMembers_eq]
  rfl

/-- Repaired text is well-formed. -/
theorem isText_repair (j : Json) : j.repair.isText = true := by
  induction j using induct with
  | null | bool | unsigned | signed | double => rfl
  | str s => exact Utf8.valid_repair s
  | arr items ih =>
      rw [repair_arr, isText, allText_arr]
      exact List.forall_mem_map.mpr ih
  | obj members ih =>
      rw [repair_obj, isText, allText_obj]
      exact List.forall_mem_map.mpr fun e he => ⟨Utf8.valid_repair e.1, ih e he⟩

/-- Well-formed text needs no repair. -/
theorem repair_of_isText {j : Json} (h : j.isText = true) : j.repair = j := by
  induction j using induct with
  | null | bool | unsigned | signed | double => rfl
  | str s => rw [repair, Utf8.repair_of_valid h]
  | arr items ih =>
      rw [repair_arr, List.map_congr_left fun v hv => ih v hv ((allText_arr _ _).mp h v hv),
        List.map_id']
  | obj members ih =>
      have hmember : ∀ e ∈ members, (Utf8.repair e.1, e.2.repair) = e := by
        intro e he
        obtain ⟨hkey, hv⟩ := (allText_obj _ _).mp h e he
        rw [Utf8.repair_of_valid hkey, ih e he hv]
      rw [repair_obj, List.map_congr_left hmember, List.map_id']

/-- An object with well-formed keys is repaired member by member. -/
theorem repair_object {members : List (Bytes × Json)} (h : ∀ e ∈ members, Utf8.valid e.1 = true) :
    (object members).repair = object (members.map fun e => (e.1, e.2.repair)) := by
  have hkey : ∀ e ∈ Entries.ofList members,
      (Utf8.repair e.1, e.2.repair) = (e.1, e.2.repair) := fun e he => by
    rw [Utf8.repair_of_valid (h e (Entries.mem_of_mem_ofList he))]
  rw [object, repair_obj, List.map_congr_left hkey, object, Entries.ofList_map_value]

end FleetControl.Json
