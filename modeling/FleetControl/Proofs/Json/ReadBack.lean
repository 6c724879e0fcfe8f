import FleetControl.Proofs.Json.Number
import FleetControl.Proofs.Json.Repair

/-!
# What is read back — of every value that is written

Null is written for a double that is not finite, so the text of a value is the text of the value
with null in such places (`write_finite`).  What is written with repairs can therefore be read,
whatever the value is (`parse?_writeRepaired`), and what is read of it is `reread`: repaired,
with null in such places, and settled.

Values are the `Same` if they differ only in how their whole numbers are held.  A value in key order
whose text is well-formed and whose doubles are finite is read back as the same (`same_reread`).
-/

namespace FleetControl.Json

/-! ### Doubles that are not finite -/

mutual

/-- A value with null for the doubles that are not finite. -/
def finite : Json → Json
  | .double x => if x.isFinite then .double x else .null
  | .arr items => .arr (finiteItems items)
  | .obj members => .obj (finiteMembers members)
  | v => v

def finiteItems : List Json → List Json
  | [] => []
  | v :: rest => v.finite :: finiteItems rest

def finiteMembers : List (Bytes × Json) → List (Bytes × Json)
  | [] => []
  | (key, v) :: rest => (key, v.finite) :: finiteMembers rest

end

theorem finite_arr (items : List Json) : (Json.arr items).finite = .arr (items.map finite) := by
  rw [finite]
  induction items with
  | nil => rfl
  | cons v rest ih => rw [finiteItems, List.map_cons, Json.arr.inj ih]

theorem finite_obj (members : List (Bytes × Json)) :
    (Json.obj members).finite = .obj (members.map fun e => (e.1, e.2.finite)) := by
  rw [finite]
  induction members with
  | nil => rfl
  | cons e rest ih => rw [finiteMembers, List.map_cons, Json.obj.inj ih]

/-- The writer makes no difference between null and a double that is not finite. -/
theorem write_finite (j : Json) : j.finite.write = j.write := by
  induction j using induct with
  | null | bool | unsigned | signed | str => rfl
  | double x =>
      rw [finite]
      split
      · rfl
      · rename_i hf
        rw [write_double, doubleText, if_neg hf]
        rfl
  | arr items ih =>
      rw [finite_arr]
      cases items with
      | nil => rfl
      | cons v rest =>
          obtain ⟨hv, hrest⟩ := List.forall_mem_cons.mp ih
          have hitems : ((rest.map finite).flatMap fun v => 0x2c :: v.write) =
              rest.flatMap fun v => 0x2c :: v.write := by
            rw [List.flatMap_map]
            exact List.flatMap_congr fun v hm => congrArg _ (hrest v hm)
          rw [List.map_cons, write_arr, write_arr, hv, hitems]
  | obj members ih =>
      rw [finite_obj]
      cases members with
      | nil => rfl
      | cons e rest =>
          obtain ⟨hv, hrest⟩ := List.forall_mem_cons.mp ih
          have hmember {e : Bytes × Json} (he : e.2.finite.write = e.2.write) :
              writeMember (e.1, e.2.finite) = writeMember e := by
            rw [writeMember, writeMember, he]
          have hmembers : ((rest.map fun e => (e.1, e.2.finite)).flatMap fun e =>
              0x2c :: writeMember e) = rest.flatMap fun e => 0x2c :: writeMember e := by
            rw [List.flatMap_map]
            exact List.flatMap_congr fun e hm => congrArg _ (hmember (hrest e hm))
          rw [List.map_cons, write_obj, write_obj, hmember hv, hmembers]

theorem isText_finite {j : Json} (h : j.isText = true) : j.finite.isText = true := by
  induction j using induct with
  | null | bool | unsigned | signed | str => exact h
  | double x => rw [finite]; split <;> rfl
  | arr items ih =>
      have h := (allText_arr _ _).mp h
      rw [finite_arr, isText, allText_arr]
      exact List.forall_mem_map.mpr fun v hv => ih v hv (h v hv)
  | obj members ih =>
      have h := (allText_obj _ _).mp h
      rw [finite_obj, isText, allText_obj]
      exact List.forall_mem_map.mpr fun e he => ⟨(h e he).1, ih e he (h e he).2⟩

theorem isFinite_of_mem_doubles_finite {j : Json} {x : Double} (h : x ∈ j.finite.doubles) :
    x.isFinite = true := by
  induction j using induct with
  | null | bool | unsigned | signed | str => cases h
  | double y =>
      rw [finite] at h
      split at h
      · rename_i hf
        rwa [List.mem_singleton.mp h]
      · cases h
  | arr items ih =>
      rw [finite_arr, doubles_arr, List.flatMap_map] at h
      obtain ⟨v, hv, hx⟩ := List.mem_flatMap.mp h
      exact ih v hv hx
  | obj members ih =>
      rw [finite_obj, doubles_obj, List.flatMap_map] at h
      obtain ⟨e, he, hx⟩ := List.mem_flatMap.mp h
      exact ih e he hx

theorem isLegible_finite (j : Json) : j.finite.IsLegible :=
  fun _ hx => parse?_double (isFinite_of_mem_doubles_finite hx)

theorem finite_of_isFinite {j : Json} (h : ∀ x ∈ j.doubles, x.isFinite = true) : j.finite = j := by
  induction j using induct with
  | null | bool | unsigned | signed | str => rfl
  | double x => exact if_pos (h x (List.mem_singleton_self x))
  | arr items ih =>
      rw [doubles_arr] at h
      have hitem : ∀ v ∈ items, v.finite = v := fun v hv =>
        ih v hv fun x hx => h x (List.mem_flatMap.mpr ⟨v, hv, hx⟩)
      rw [finite_arr, List.map_congr_left hitem, List.map_id']
  | obj members ih =>
      rw [doubles_obj] at h
      have hmember : ∀ e ∈ members, (e.1, e.2.finite) = e := fun e he => by
        rw [ih e he fun x hx => h x (List.mem_flatMap.mpr ⟨e, he, hx⟩)]
      rw [finite_obj, List.map_congr_left hmember, List.map_id']

theorem finite_object (members : List (Bytes × Json)) :
    (object members).finite = object (members.map fun e => (e.1, e.2.finite)) := by
  rw [object, finite_obj, object, Entries.ofList_map_value]

/-! ### Reading back -/

/-- What is read back of a value that was written with repairs. -/
def reread (j : Json) : Json := j.repair.finite.settle

/-- Whatever is written with repairs can be read. -/
theorem parse?_writeRepaired (j : Json) : parse? j.writeRepaired = some j.reread := by
  rw [writeRepaired, ← write_finite, parse?_write (isText_finite j.isText_repair)
    j.repair.isLegible_finite, reread]

theorem reread_arr (items : List Json) : (Json.arr items).reread = .arr (items.map reread) := by
  rw [reread, repair_arr, finite_arr, settle_arr, List.map_map, List.map_map]
  rfl

theorem reread_str {s : Bytes} (h : Utf8.valid s = true) : (Json.str s).reread = .str s :=
  congrArg Json.str (Utf8.repair_of_valid h)

/-- An object with well-formed keys is read back member by member. -/
theorem reread_object {members : List (Bytes × Json)} (h : ∀ e ∈ members, Utf8.valid e.1 = true) :
    (object members).reread = object (members.map fun e => (e.1, e.2.reread)) := by
  rw [reread, repair_object h, finite_object, settle_object, List.map_map, List.map_map]
  rfl

/-- A record with well-formed names is read back field by field. -/
theorem reread_record {fields : List (Bytes × Option Json)}
    (h : (fields.map (·.1)).all Utf8.valid = true) :
    (record fields).reread = record (fields.map fun e => (e.1, e.2.map reread)) := by
  have hnames : ∀ e ∈ present fields, Utf8.valid e.1 = true := fun e he =>
    List.all_eq_true.mp h e.1 (List.mem_map_of_mem (mem_present_iff.mp he))
  rw [record, reread_object hnames, record, present_map]

/-! ### Equal values -/

/-- Values that are equal, but a whole number may be held without a sign in the first and with one in
the second. -/
inductive Same : Json → Json → Prop
  | refl (j : Json) : Same j j
  | whole {m : UInt64} {n : Int64} (h : (m.toNat : ℤ) = n.toInt) : Same (.unsigned m) (.signed n)
  | arr {items items' : List Json} (h : List.Forall₂ Same items items') :
    Same (.arr items) (.arr items')
  | obj {members members' : List (Bytes × Json)}
    (keys : members.map (·.1) = members'.map (·.1))
    (values : List.Forall₂ Same (members.map (·.2)) (members'.map (·.2))) :
    Same (.obj members) (.obj members')

/-- All members of objects are in key order. -/
inductive IsOrdered : Json → Prop
  | null : IsOrdered .null
  | bool (b : Bool) : IsOrdered (.bool b)
  | unsigned (n : UInt64) : IsOrdered (.unsigned n)
  | signed (n : Int64) : IsOrdered (.signed n)
  | double (x : Double) : IsOrdered (.double x)
  | str (s : Bytes) : IsOrdered (.str s)
  | arr {items : List Json} (h : ∀ v ∈ items, IsOrdered v) : IsOrdered (.arr items)
  | obj {members : List (Bytes × Json)} (ascending : Entries.Ascending members)
    (h : ∀ e ∈ members, IsOrdered e.2) : IsOrdered (.obj members)

theorem same_ofInt64 (n : Int64) : (ofInt64 n).Same (.signed n) := by
  rw [ofInt64]
  split
  · exact .refl _
  · rename_i hn
    have h₀ := Int64.not_lt.mp hn
    have hnonneg : 0 ≤ n.toInt := Int64.le_iff_toInt_le.mp h₀
    refine .whole ?_
    rw [Int64.toNat_toUInt64_of_le h₀, Int64.toNatClampNeg, Int.toNat_of_nonneg hnonneg]

/-- Settling changes nothing but how whole numbers are held. -/
theorem same_settle {j : Json} (h : j.IsOrdered) : j.settle.Same j := by
  induction h with
  | null | bool | unsigned | double | str => exact .refl _
  | signed n => exact same_ofInt64 n
  | arr _ ih =>
      rw [settle_arr]
      exact .arr (List.forall₂_map_left_iff.mpr (List.forall₂_same.mpr ih))
  | @obj members ascending _ ih =>
      rw [settle_obj, object, Entries.ofList_map_value, Entries.ofList_of_ascending ascending]
      refine .obj ?_ ?_
      · rw [List.map_map]
        rfl
      · rw [List.map_map, List.forall₂_map_left_iff, List.forall₂_map_right_iff]
        exact List.forall₂_same.mpr ih

theorem same_reread {j : Json} (ht : j.isText = true)
    (hf : ∀ x ∈ j.doubles, x.isFinite = true) (ho : j.IsOrdered) : j.reread.Same j := by
  rw [reread, repair_of_isText ht, finite_of_isFinite hf]
  exact same_settle ho

end FleetControl.Json
