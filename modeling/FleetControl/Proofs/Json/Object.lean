import FleetControl.Proofs.Json.Value

/-!
# JSON objects — objects that are made of members

An object that is made of members in any order is settled, and its text is well-formed, as those of
its members are (`settle_object`, `allText_object`).  A `record` is an object of named fields of which
each may be lacking: what is found under a name is its field (`get?_record`).
-/

namespace FleetControl.Json

variable {members : List (Bytes × Json)} {fields : List (Bytes × Option Json)} {key : Bytes}

/-! ### Objects -/

theorem settle_object (members : List (Bytes × Json)) :
    (object members).settle = object (members.map fun e => (e.1, e.2.settle)) := by
  rw [object, settle_obj, object, ← Entries.ofList_map_value,
    Entries.ofList_of_ascending (Entries.ascending_ofList _), object]

theorem allText_object {test : Bytes → Bool}
    (h : ∀ e ∈ members, test e.1 = true ∧ e.2.allText test = true) :
    (object members).allText test = true :=
  (allText_obj test _).mpr fun e he => h e (Entries.mem_of_mem_ofList he)

/-! ### Records -/

/-- The members that a record has. -/
def present (fields : List (Bytes × Option Json)) : List (Bytes × Json) :=
  fields.flatMap fun f => (f.2.map (f.1, ·)).toList

/-- An object with the fields that are not lacking. -/
def record (fields : List (Bytes × Option Json)) : Json := object (present fields)

/-- A member that is left out under a condition is a field that is lacking under it. -/
theorem ite_member (c : Bool) (name : Bytes) (v : Json) :
    (if c then [] else [(name, v)]) = ((if c then none else some v).map (name, ·)).toList := by
  cases c <;> rfl

theorem mem_present_iff {e : Bytes × Json} :
    e ∈ present fields ↔ (e.1, some e.2) ∈ fields := by
  rw [present, List.mem_flatMap]
  constructor
  · rintro ⟨⟨name, v⟩, hf, he⟩
    obtain ⟨w, rfl, rfl⟩ := Option.map_eq_some_iff.mp (Option.mem_toList.mp he)
    exact hf
  · intro h
    exact ⟨_, h, by simp⟩

theorem present_map (f : Json → Json) (fields : List (Bytes × Option Json)) :
    present (fields.map fun e => (e.1, e.2.map f)) =
      (present fields).map fun e => (e.1, f e.2) := by
  rw [present, present, List.flatMap_map, List.map_flatMap]
  exact List.flatMap_congr fun ⟨name, v⟩ _ => by cases v <;> rfl

/-- What is found under a name is its field. -/
theorem get?_record (fields : List (Bytes × Option Json)) (h : (fields.map (·.1)).Nodup)
    (key : Bytes) : (record fields).get? key = (fields.lookup key).join := by
  have hfound : (Entries.ofList (present fields)).lookup key = (fields.lookup key).join := by
    induction fields with
    | nil => rfl
    | cons f rest ih =>
        obtain ⟨name, v⟩ := f
        obtain ⟨hname, hrest⟩ := List.nodup_cons.mp h
        have hcons : present ((name, v) :: rest) = (v.map (name, ·)).toList ++ present rest := rfl
        rw [hcons, List.lookup_cons]
        by_cases hk : key = name
        · -- no field behind has the name
          have hnone : rest.lookup key = none :=
            Entries.lookup_eq_none_of_not_mem (hk ▸ hname)
          have ih := ih hrest
          rw [hnone] at ih
          cases v with
          | none => rw [hk, beq_self_eq_true]; exact hk ▸ ih
          | some v =>
              rw [Option.map_some, Option.toList_some, List.singleton_append,
                Entries.lookup_ofList_cons, if_pos hk, ih, hk, beq_self_eq_true]
              rfl
        · rw [beq_false_of_ne hk, ← ih hrest]
          cases v with
          | none => rfl
          | some v =>
              rw [Option.map_some, Option.toList_some, List.singleton_append,
                Entries.lookup_ofList_cons, if_neg hk]
  exact hfound

end FleetControl.Json
