import FleetControl.Json.Value
import FleetControl.Proofs.Table

/-!
# JSON values — what reading back makes of a value

`Json.induct` is induction over values with one case for arrays and one for objects.  A value that
is written and read back is *settled* (`Json.settle`): a number without minus sign is held without
one, and the members of an object are in key order.
-/

namespace FleetControl.Json

/-- Induction over values, with all items of an array and all members of an object at once. -/
@[elab_as_elim] theorem induct {motive : Json → Prop} (null : motive .null)
    (bool : ∀ b, motive (.bool b)) (unsigned : ∀ n, motive (.unsigned n))
    (signed : ∀ n, motive (.signed n)) (double : ∀ x, motive (.double x))
    (str : ∀ s, motive (.str s)) (arr : ∀ items, (∀ v ∈ items, motive v) → motive (.arr items))
    (obj : ∀ members, (∀ e ∈ members, motive e.2) → motive (.obj members)) (j : Json) :
    motive j := by
  refine @Json.rec motive (fun items => ∀ v ∈ items, motive v)
    (fun members => ∀ e ∈ members, motive e.2) (fun e => motive e.2) null bool unsigned signed
    double str arr obj ?_ ?_ ?_ ?_ (fun _ _ h => h) j
  · intro v hv
    cases hv
  · intro v rest hv hrest
    exact List.forall_mem_cons.mpr ⟨hv, hrest⟩
  · intro e he
    cases he
  · intro e rest he hrest
    exact List.forall_mem_cons.mpr ⟨he, hrest⟩

/-! ### Parts of a value -/

theorem allText_arr (test : Bytes → Bool) (items : List Json) :
    (Json.arr items).allText test = true ↔ ∀ v ∈ items, v.allText test = true := by
  rw [allText]
  induction items with
  | nil => simp [allItems]
  | cons v rest ih => simp [allItems, ih]

theorem allText_obj (test : Bytes → Bool) (members : List (Bytes × Json)) :
    (Json.obj members).allText test = true ↔
      ∀ e ∈ members, test e.1 = true ∧ e.2.allText test = true := by
  rw [allText]
  induction members with
  | nil => simp [allMembers]
  | cons e rest ih => obtain ⟨key, v⟩ := e; simp [allMembers, ih, and_assoc]

mutual

/-- The doubles in a value. -/
def doubles : Json → List Double
  | .double x => [x]
  | .arr items => doublesOfItems items
  | .obj members => doublesOfMembers members
  | _ => []

def doublesOfItems : List Json → List Double
  | [] => []
  | v :: rest => v.doubles ++ doublesOfItems rest

def doublesOfMembers : List (Bytes × Json) → List Double
  | [] => []
  | (_, v) :: rest => v.doubles ++ doublesOfMembers rest

end

theorem doubles_arr (items : List Json) : (Json.arr items).doubles = items.flatMap doubles := by
  rw [doubles]
  induction items with
  | nil => rfl
  | cons v rest ih => rw [doublesOfItems, ih, List.flatMap_cons]

theorem doubles_obj (members : List (Bytes × Json)) :
    (Json.obj members).doubles = members.flatMap fun e => e.2.doubles := by
  rw [doubles]
  induction members with
  | nil => rfl
  | cons e rest ih => rw [doublesOfMembers, ih, List.flatMap_cons]

/-! ### Settled values -/

mutual

/-- What is read back of a value that was written. -/
def settle : Json → Json
  | .signed n => ofInt64 n
  | .arr items => .arr (settleItems items)
  | .obj members => object (settleMembers members)
  | v => v

def settleItems : List Json → List Json
  | [] => []
  | v :: rest => v.settle :: settleItems rest

def settleMembers : List (Bytes × Json) → List (Bytes × Json)
  | [] => []
  | (key, v) :: rest => (key, v.settle) :: settleMembers rest

end

theorem settle_arr (items : List Json) : (Json.arr items).settle = .arr (items.map settle) := by
  rw [settle]
  induction items with
  | nil => rfl
  | cons v rest ih => rw [settleItems, List.map_cons, Json.arr.inj ih]

theorem settle_obj (members : List (Bytes × Json)) :
    (Json.obj members).settle = object (members.map fun e => (e.1, e.2.settle)) := by
  have h : settleMembers members = members.map fun e => (e.1, e.2.settle) := by
    induction members with
    | nil => rfl
    | cons e rest ih => rw [settleMembers, ih, List.map_cons]
  rw [settle, h]

theorem settle_ofInt64 (n : Int64) : (ofInt64 n).settle = ofInt64 n := by
  rw [ofInt64]
  split
  · rename_i h; rw [settle, ofInt64, if_pos h]
  · rfl

/-- What was read back is settled. -/
theorem settle_settle (j : Json) : j.settle.settle = j.settle := by
  induction j using induct with
  | null | bool | unsigned | double | str => rfl
  | signed n => exact settle_ofInt64 n
  | arr items ih =>
      rw [settle_arr, settle_arr, List.map_map]
      exact congrArg Json.arr (List.map_congr_left ih)
  | obj members ih =>
      rw [settle_obj, object, settle_obj]
      -- the members that were put in order are settled, and stay in order
      have h : ∀ e ∈ Entries.ofList (members.map fun e => (e.1, e.2.settle)),
          (e.1, e.2.settle) = e := by
        intro e he
        obtain ⟨d, hd, rfl⟩ := List.mem_map.mp (Entries.mem_of_mem_ofList he)
        rw [ih d hd]
      rw [List.map_congr_left h, List.map_id', object,
        Entries.ofList_of_ascending (Entries.ascending_ofList _)]

theorem int64?_ofInt64 (n : Int64) : (ofInt64 n).int64? = some n := by
  rw [ofInt64]
  split <;> simp [int64?]

end FleetControl.Json
