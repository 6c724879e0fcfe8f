import FleetControl.Attributes
import FleetControl.Proofs.Json.ReadBack
import FleetControl.Proofs.Result

/-!
# Attributes as JSON — what is read of what was written

Attributes are written as one object of texts and read back from it (`read_toJson`).  What is read
from a value with well-formed text is well-formed (`isText_of_read`).
-/

namespace FleetControl

namespace Json

variable {j v : Json} {key : Bytes}

theorem isText_of_get? (h : j.isText = true) (hg : j.get? key = some v) : v.isText = true := by
  cases j with
  | obj members => exact ((allText_obj _ _).mp h _ (Entries.mem_of_lookup hg)).2
  | null | bool | unsigned | signed | double | str | arr => cases hg

theorem get?_of_given? (h : j.given? key = some v) : j.get? key = some v :=
  (Option.filter_eq_some_iff.mp h).1

theorem given?_of_get? (h : j.get? key = some v) (hv : v.isNull = false) :
    j.given? key = some v := by
  rw [given?, h, Option.filter_some_pos (by rw [hv]; rfl)]

theorem given?_of_none (h : j.get? key = none) : j.given? key = none := by
  rw [given?, h]
  rfl

end Json

namespace Attributes

variable {attrs : Attributes} {parent : Json} {field path : Bytes}

/-- All names and texts are well-formed. -/
def IsText (attrs : Attributes) : Prop :=
  ∀ key s, attrs.get? key = some s → Utf8.valid key = true ∧ Utf8.valid s = true

theorem toJson_eq (attrs : Attributes) :
    attrs.toJson = .object (attrs.toList.map fun e => (e.1, .str e.2)) := by
  have hascending : Entries.Ascending attrs.toList := attrs.ascending
  rw [Json.object, Entries.ofList_of_ascending (Entries.ascending_map_value _ hascending)]
  rfl

theorem reread_toJson (h : attrs.IsText) : attrs.toJson.reread = attrs.toJson := by
  have hentry : ∀ e ∈ attrs.toList, Utf8.valid e.1 = true ∧ Utf8.valid e.2 = true :=
    fun e he => h e.1 e.2 (Table.mem_toList_iff.mp he)
  have hkeys : ∀ e ∈ attrs.toList.map fun e => (e.1, Json.str e.2), Utf8.valid e.1 = true :=
    List.forall_mem_map.mpr fun e he => (hentry e he).1
  have hstr : ∀ e ∈ attrs.toList, (e.1, (Json.str e.2).reread) = (e.1, .str e.2) :=
    fun e he => congrArg (Prod.mk e.1) (Json.reread_str (hentry e he).2)
  rw [toJson_eq, Json.reread_object hkeys, List.map_map]
  exact congrArg Json.object (List.map_congr_left hstr)

theorem ofMembers_map (path : Bytes) (entries : List (Bytes × Bytes)) :
    ofMembers path (entries.map fun e => (e.1, .str e.2)) = .ok (Table.ofList entries) := by
  have hitems (f : Bytes × Json → Except Refusal (Bytes × Bytes))
      (h : ∀ e ∈ entries, f (e.1, .str e.2) = .ok e) :
      (entries.map fun e => (e.1, Json.str e.2)).mapM f = .ok entries := mapM_map_eq_self h
  rw [ofMembers, hitems _ fun _ _ => rfl]
  rfl

/-- Attributes read back from the object that they are written as. -/
theorem read_toJson (h : parent.get? field = some attrs.toJson) (path : Bytes) :
    read parent field path = .ok attrs := by
  have hentries : Table.ofList attrs.toList = attrs := by
    simp only [Table.ofList, Table.toList, Entries.ofList_of_ascending attrs.ascending]
  rw [read, Json.given?_of_get? h rfl]
  exact (ofMembers_map path attrs.toList).trans (congrArg Except.ok hentries)

/-- Attributes that are read from well-formed text are well-formed. -/
theorem isText_of_read (hp : parent.isText = true) (h : read parent field path = .ok attrs) :
    attrs.IsText := by
  rw [read] at h
  split at h
  · cases h
    exact fun key s hs => nomatch hs
  · rename_i members hg
    have hmembers := (Json.allText_obj _ _).mp (Json.isText_of_get? hp (Json.get?_of_given? hg))
    obtain ⟨entries, hentries, hattrs⟩ := exists_of_bind_eq_ok h
    cases hattrs
    intro key s hs
    -- every entry comes from a member with this key and text
    obtain ⟨⟨name, v⟩, hm, hv⟩ := exists_of_mem_mapM hentries
      (Entries.mem_of_mem_ofList (Entries.mem_of_lookup hs))
    cases v with
    | str t => cases hv; exact hmembers _ hm
    | null | bool | unsigned | signed | double | arr | obj => cases hv
  · cases h

end Attributes

end FleetControl
