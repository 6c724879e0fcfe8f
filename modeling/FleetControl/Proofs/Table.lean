import FleetControl.Table
import Mathlib.Data.List.Sort

/-!
# Tables — what changes do to what is found, and to the entries

`get?_insert`, `get?_insertNew`, `get?_filter` and `get?_union` say what is found after each change,
and changes at different keys commute (`alter_comm`).

A table is known from what it finds: `toList_eq_of_get?` gives its entries, and
`keys_eq_of_contains` its keys, as any ascending list that agrees with it.  If values stand under
names of their own, they are listed in the order of these (`values_pairwise`, `values_perm`).
-/

namespace FleetControl

namespace Entries

variable {α : Type}

/-- Filtering keeps what it finds good under a key, and nothing else. -/
theorem lookup_filter (keep : Bytes → α → Bool) {entries : List (Bytes × α)}
    (h : Ascending entries) (key : Bytes) :
    (entries.filter fun e => keep e.1 e.2).lookup key = (entries.lookup key).filter (keep key) := by
  induction entries with
  | nil => rfl
  | cons e rest ih =>
      obtain ⟨k, v⟩ := e
      obtain ⟨hk, hr⟩ := List.pairwise_cons.mp h
      rw [List.filter_cons]
      by_cases e : key = k
      · subst e
        rw [List.lookup_cons_self]
        by_cases hv : keep key v = true
        · rw [if_pos hv, List.lookup_cons_self, Option.filter_some_pos hv]
        · rw [if_neg hv, ih hr, lookup_eq_none_of_lt hk,
            Option.filter_some_neg (Bool.eq_false_iff.mpr hv), Option.filter_none]
      · have hb : (key == k) = false := beq_false_of_ne e
        rw [List.lookup_cons, hb, ← ih hr]
        split
        · rw [List.lookup_cons, hb]
        · rfl

/-- Items listed under keys of their own are found as the first with the key. -/
theorem lookup_map (name : α → Bytes) (items : List α) (key : Bytes) :
    (items.map fun x => (name x, x)).lookup key = items.find? fun x => name x == key := by
  induction items with
  | nil => rfl
  | cons x xs ih =>
      rw [List.map_cons, List.lookup_cons, List.find?_cons, ih]
      by_cases e : key = name x
      · rw [e, beq_self_eq_true]
      · rw [beq_false_of_ne e, beq_false_of_ne (Ne.symm e)]

/-- Items in the order of their names make ascending entries. -/
theorem ascending_map {name : α → Bytes} {items : List α}
    (h : items.Pairwise fun x y => name x < name y) :
    Ascending (items.map fun x => (name x, x)) :=
  List.pairwise_map.mpr h

/-- Of several entries for a key the last one counts. -/
theorem lookup_ofList_cons (e : Bytes × α) (rest : List (Bytes × α)) (key : Bytes) :
    (ofList (e :: rest)).lookup key =
      if key = e.1 then some (((ofList rest).lookup key).getD e.2)
      else (ofList rest).lookup key := by
  rw [ofList, List.foldr_cons, ← ofList]
  by_cases h : key = e.1
  · rw [if_pos h, h]
    exact lookup_alter_self _ _ (ascending_ofList rest)
  · rw [if_neg h]
    exact lookup_alter_of_ne h _ _

/-- A table is made of no entries but those it is given. -/
theorem mem_of_mem_ofList {e : Bytes × α} {entries : List (Bytes × α)}
    (h : e ∈ ofList entries) : e ∈ entries := by
  have hl : (ofList entries).lookup e.1 = some e.2 := lookup_of_mem (ascending_ofList entries) h
  clear h
  induction entries with
  | nil => cases hl
  | cons d rest ih =>
      rw [lookup_ofList_cons] at hl
      split at hl
      · rename_i hk
        cases hr : (ofList rest).lookup e.1 with
        | some v =>
            rw [hr, Option.getD_some] at hl
            exact List.mem_cons_of_mem _ (ih (hr.trans hl))
        | none =>
            rw [hr, Option.getD_none, Option.some.injEq] at hl
            rw [show e = d from Prod.ext hk hl.symm]
            exact List.mem_cons_self
      · exact List.mem_cons_of_mem _ (ih hl)

/-- Nothing is found under a key that no entry has. -/
theorem lookup_eq_none_of_not_mem {entries : List (Bytes × α)} {key : Bytes}
    (h : key ∉ entries.map (·.1)) : entries.lookup key = none := by
  rw [List.lookup_eq_none_iff]
  intro e he
  rw [bne_iff_ne]
  rintro rfl
  exact h (List.mem_map_of_mem he)

/-! ### Other values under the same keys -/

/-- Mapping the values maps what is found. -/
theorem lookup_map_value {β : Type} (f : α → β) (entries : List (Bytes × α)) (key : Bytes) :
    (entries.map fun e => (e.1, f e.2)).lookup key = (entries.lookup key).map f := by
  induction entries with
  | nil => rfl
  | cons e rest ih =>
      rw [List.map_cons, List.lookup_cons, List.lookup_cons, ih]
      split <;> rfl

/-- Mapping the values keeps the keys, and so their order. -/
theorem ascending_map_value {β : Type} (f : α → β) {entries : List (Bytes × α)}
    (h : Ascending entries) : Ascending (entries.map fun e => (e.1, f e.2)) :=
  List.pairwise_map.mpr h

/-- Mapping the values commutes with making a table. -/
theorem ofList_map_value {β : Type} (f : α → β) (entries : List (Bytes × α)) :
    ofList (entries.map fun e => (e.1, f e.2)) = (ofList entries).map fun e => (e.1, f e.2) := by
  refine eq_of_lookup_eq (ascending_ofList _) (ascending_map_value f (ascending_ofList _))
    fun key => ?_
  rw [lookup_map_value]
  induction entries with
  | nil => rfl
  | cons e rest ih =>
      rw [List.map_cons, lookup_ofList_cons, lookup_ofList_cons, ih]
      split
      · rw [Option.map_some, Option.getD_map]
      · rfl

end Entries

namespace Table

variable {α : Type} {t : Table α} {key other : Bytes} {v : α}

/-- An alteration shows under its key and nowhere else. -/
theorem get?_alter (t : Table α) (key other : Bytes) (f : Option α → Option α) :
    (t.alter key f).get? other = if other = key then f (t.get? other) else t.get? other := by
  by_cases h : other = key
  · subst h
    rw [if_pos rfl]
    exact get?_alter_self t other f
  · rw [if_neg h]
    exact get?_alter_of_ne h t f

theorem get?_insert (t : Table α) (key other : Bytes) (v : α) :
    (t.insert key v).get? other = if other = key then some v else t.get? other :=
  t.get?_alter key other _

/-- What is there already stays. -/
theorem get?_insertNew (t : Table α) (key other : Bytes) (v : α) :
    (t.insertNew key v).get? other =
      if other = key then some ((t.get? other).getD v) else t.get? other :=
  t.get?_alter key other _

theorem get?_erase (t : Table α) (key other : Bytes) :
    (t.erase key).get? other = if other = key then none else t.get? other :=
  t.get?_alter key other _

theorem get?_filter (t : Table α) (keep : Bytes → α → Bool) (key : Bytes) :
    (t.filter keep).get? key = (t.get? key).filter (keep key) :=
  Entries.lookup_filter keep t.ascending key

/-- Of entries that are inserted one by one each key finds its own. -/
theorem get?_foldl_insert {entries : List (Bytes × α)} (h : Entries.Ascending entries)
    (t : Table α) (key : Bytes) : (entries.foldl (fun t e => t.insert e.1 e.2) t).get? key =
      (entries.lookup key).or (t.get? key) := by
  induction entries generalizing t with
  | nil => rfl
  | cons e rest ih =>
      obtain ⟨k, v⟩ := e
      obtain ⟨hk, hr⟩ := List.pairwise_cons.mp h
      rw [List.foldl_cons, ih hr, get?_insert, List.lookup_cons]
      by_cases e : key = k
      · subst e
        rw [Entries.lookup_eq_none_of_lt hk, if_pos rfl, beq_self_eq_true]
        rfl
      · rw [if_neg e, beq_false_of_ne e]

/-- An entry of the table that is added replaces one that was there. -/
theorem get?_union (t u : Table α) (key : Bytes) :
    (t.union u).get? key = (u.get? key).or (t.get? key) :=
  get?_foldl_insert u.ascending t key

/-- A change is known from what it makes of the value that is there. -/
theorem alter_congr {f g : Option α → Option α} (h : f (t.get? key) = g (t.get? key)) :
    t.alter key f = t.alter key g := by
  refine ext_get? fun other => ?_
  rw [get?_alter, get?_alter]
  split
  · rename_i hk
    rw [hk, h]
  · rfl

/-- An alteration that gives back what it finds changes nothing. -/
theorem alter_eq_self {f : Option α → Option α} (h : f (t.get? key) = t.get? key) :
    t.alter key f = t := by
  refine ext_get? fun other => ?_
  rw [get?_alter]
  split
  · rename_i hk
    rw [hk, h]
  · rfl

/-- Altering a key twice is altering it once. -/
theorem alter_alter (t : Table α) (key : Bytes) (f g : Option α → Option α) :
    (t.alter key f).alter key g = t.alter key fun v => g (f v) := by
  refine ext_get? fun other => ?_
  rw [get?_alter, get?_alter, get?_alter]
  split <;> rfl

/-- Changes commute at different keys, and at one key if they commute there. -/
theorem alter_comm {f g : Option α → Option α} (h : key = other → ∀ v, f (g v) = g (f v))
    (t : Table α) : (t.alter key f).alter other g = (t.alter other g).alter key f := by
  refine ext_get? fun k => ?_
  simp only [get?_alter]
  by_cases h₁ : k = key <;> by_cases h₂ : k = other
  · rw [if_pos h₂, if_pos h₁, if_pos h₁, if_pos h₂, h (h₁.symm.trans h₂)]
  · rw [if_neg h₂, if_pos h₁, if_pos h₁, if_neg h₂]
  · rw [if_pos h₂, if_neg h₁, if_neg h₁, if_pos h₂]
  · rw [if_neg h₂, if_neg h₁, if_neg h₁, if_neg h₂]

/-- A table contains the keys under which something is found. -/
theorem contains_iff : t.contains key = true ↔ ∃ v, t.get? key = some v :=
  Option.isSome_iff_exists

/-- The keys of a table are those it contains. -/
theorem mem_keys_iff : key ∈ t.keys ↔ t.contains key = true := by
  rw [contains_iff, keys, List.mem_map]
  constructor
  · rintro ⟨⟨k, v⟩, h, rfl⟩
    exact ⟨v, mem_toList_iff.mp h⟩
  · rintro ⟨v, h⟩
    exact ⟨(key, v), mem_toList_iff.mpr h, rfl⟩

/-- The keys stand in order. -/
theorem keys_ascending (t : Table α) : t.keys.Pairwise (· < ·) := List.pairwise_map.mpr t.ascending

theorem length_keys (t : Table α) : t.keys.length = t.size := List.length_map _

theorem keys_filter (t : Table α) (p : Bytes → Bool) :
    (t.filter fun key _ => p key).keys = t.keys.filter p := by
  have e : (t.filter fun key _ => p key).keys = (t.entries.filter fun e => p e.1).map (·.1) := rfl
  rw [e, keys, List.filter_map]
  rfl

/-- The entries of a table that finds what an ascending list does. -/
theorem toList_eq_of_get? {entries : List (Bytes × α)} (he : Entries.Ascending entries)
    (h : ∀ key, t.get? key = entries.lookup key) : t.toList = entries :=
  Entries.eq_of_lookup_eq t.ascending he h

/-- The keys of a table that contains what an ascending list does. -/
theorem keys_eq_of_contains {keys : List Bytes} (hk : keys.Pairwise (· < ·))
    (h : ∀ key, t.contains key = true ↔ key ∈ keys) : t.keys = keys := by
  have : Std.Irrefl (α := Bytes) (· < ·) := ⟨Bytes.lt_irrefl⟩
  have : Std.Asymm (α := Bytes) (· < ·) := ⟨fun _ _ h h' => Bytes.lt_irrefl _ (Bytes.lt_trans h h')⟩
  exact t.keys_ascending.eq_of_mem_iff hk fun {key} => mem_keys_iff.trans (h key)

/-- No key is listed twice. -/
theorem keys_nodup (t : Table α) : t.keys.Nodup :=
  t.keys_ascending.imp fun {a b} (h : a < b) (e : a = b) => Bytes.lt_irrefl b (e ▸ h)

theorem toList_nodup (t : Table α) : t.toList.Nodup := .of_map _ t.keys_nodup

/-- A new key is one more. -/
theorem keys_insert_of_none (h : t.get? key = none) (v : α) :
    (t.insert key v).keys.Perm (key :: t.keys) := by
  have hnew : key ∉ t.keys := fun hk => by
    rw [mem_keys_iff, contains, h] at hk
    cases hk
  refine (List.perm_ext_iff_of_nodup (keys_nodup _) (t.keys_nodup.cons hnew)).mpr fun other => ?_
  rw [mem_keys_iff, contains, get?_insert, List.mem_cons, mem_keys_iff, contains]
  split
  · simp [*]
  · simp [*]

/-- A value that is replaced leaves the keys as they are. -/
theorem keys_insert_of_some {old : α} (h : t.get? key = some old) (v : α) :
    (t.insert key v).keys = t.keys := by
  refine keys_eq_of_contains t.keys_ascending fun other => ?_
  rw [contains, get?_insert, mem_keys_iff, contains]
  split
  · rename_i e
    rw [e, h]
    exact iff_of_true rfl rfl
  · rfl

/-! ### Values under names of their own -/

/-- The values of a table are what is found under its keys. -/
theorem mem_values_iff : v ∈ t.values ↔ ∃ key, t.get? key = some v := by
  rw [values, List.mem_map]
  constructor
  · rintro ⟨⟨k, v⟩, h, rfl⟩
    exact ⟨k, mem_toList_iff.mp h⟩
  · rintro ⟨k, h⟩
    exact ⟨(k, v), mem_toList_iff.mpr h, rfl⟩

/-- Values are listed in the order of the names that they stand under. -/
theorem values_pairwise {name : α → Bytes} (h : ∀ key v, t.get? key = some v → name v = key) :
    t.values.Pairwise fun a b => name a < name b := by
  rw [values, List.pairwise_map]
  refine List.Pairwise.imp_of_mem (fun {a b} ha hb hab => ?_) t.ascending
  rwa [h a.1 a.2 (mem_toList_iff.mp ha), h b.1 b.2 (mem_toList_iff.mp hb)]

/-- A filter by keys filters the values by their names. -/
theorem values_filter {name : α → Bytes} (h : ∀ key v, t.get? key = some v → name v = key)
    (p : Bytes → Bool) :
    (t.filter fun key _ => p key).values = t.values.filter fun v => p (name v) := by
  have hfilter : (t.filter fun key _ => p key).values =
      (t.toList.filter fun e => p e.1).map (·.2) := rfl
  rw [hfilter, values, List.filter_map]
  congr 1
  refine List.filter_congr fun e he => ?_
  rw [Function.comp_apply, h e.1 e.2 (mem_toList_iff.mp he)]

/-- A table that finds items by their names has them under these. -/
theorem name_of_find? {name : α → Bytes} {items : List α}
    (h : ∀ key, t.get? key = items.find? fun x => name x == key) :
    ∀ key v, t.get? key = some v → name v = key := fun key v hv => by
  simpa using List.find?_some ((h key).symm.trans hv)

/-- A table that finds items by their names contains just these names. -/
theorem contains_iff_of_find? {name : α → Bytes} {items : List α}
    (h : ∀ key, t.get? key = items.find? fun x => name x == key) :
    t.contains key = true ↔ key ∈ items.map name := by
  rw [contains, h, List.find?_isSome, List.mem_map]
  simp only [beq_iff_eq]

/-- The values of a table that finds items by their names, which differ, are these items. -/
theorem values_perm {name : α → Bytes} {items : List α} (hn : (items.map name).Nodup)
    (h : ∀ key, t.get? key = items.find? fun x => name x == key) : t.values.Perm items := by
  have hvalues : t.values.Nodup := (values_pairwise (name_of_find? h)).imp fun {a b} hab e => by
    subst e
    exact Bytes.lt_irrefl _ hab
  refine (List.perm_ext_iff_of_nodup hvalues hn.of_map).mpr fun v => mem_values_iff.trans ⟨?_, ?_⟩
  · rintro ⟨key, hv⟩
    exact List.mem_of_find?_eq_some ((h key).symm.trans hv)
  · intro hv
    refine ⟨name v, (h _).trans ?_⟩
    cases hf : items.find? fun x => name x == name v with
    | none => exact absurd (beq_self_eq_true _) (List.find?_eq_none.mp hf v hv)
    | some w =>
        have hw : name w = name v := by simpa using List.find?_some hf
        rw [List.inj_on_of_nodup_map hn (List.mem_of_find?_eq_some hf) hv hw]

/-! ### Other values under the same keys -/

/-- The table with `f` of every value. -/
def map {β : Type} (f : α → β) (t : Table α) : Table β :=
  ⟨t.entries.map fun e => (e.1, f e.2), Entries.ascending_map_value f t.ascending⟩

/-- Mapping a table maps what is found. -/
theorem get?_map {β : Type} (f : α → β) (t : Table α) (key : Bytes) :
    (t.map f).get? key = (t.get? key).map f :=
  Entries.lookup_map_value f t.entries key

theorem size_map {β : Type} (f : α → β) (t : Table α) : (t.map f).size = t.size :=
  List.length_map _

/-- Tables that find the same after mapping are the same after mapping. -/
theorem map_eq_map_of_get? {β : Type} {f : α → β} {t u : Table α}
    (h : ∀ key, (t.get? key).map f = (u.get? key).map f) : t.map f = u.map f :=
  ext_get? fun key => by rw [get?_map, get?_map, h]

end Table

end FleetControl
