import FleetControl.Bytes

/-!
# Tables

A table maps byte strings to values and lists its entries in key order.  The entries are strictly
ascending, which is part of the type, so a table is determined by what it finds: `Table.ext_get?`.
Every change is `alter`, and `get?_alter_self`, `get?_alter_of_ne` say what a change does.
-/

namespace FleetControl

/-! ### Entry lists -/

namespace Entries

variable {α : Type}

/-- Keys are strictly ascending. -/
def Ascending (entries : List (Bytes × α)) : Prop := entries.Pairwise fun a b => a.1 < b.1

/-- Gives the value of a key, if there is one, to `f`, and keeps what `f` answers. -/
def alter (key : Bytes) (f : Option α → Option α) : List (Bytes × α) → List (Bytes × α)
  | [] => (f none).toList.map (key, ·)
  | (k, v) :: rest =>
    match Bytes.order key k with
    | .lt => (f none).toList.map (key, ·) ++ (k, v) :: rest
    | .eq => (f (some v)).toList.map (key, ·) ++ rest
    | .gt => (k, v) :: alter key f rest

/-- An alteration makes no entry but one for its key. -/
theorem mem_alter {key : Bytes} {f : Option α → Option α} {entries : List (Bytes × α)}
    {e : Bytes × α} (h : e ∈ alter key f entries) : e.1 = key ∨ e ∈ entries := by
  induction entries with
  | nil => simp only [alter, List.mem_map] at h; obtain ⟨v, -, rfl⟩ := h; exact .inl rfl
  | cons hd rest ih =>
    obtain ⟨k, v⟩ := hd
    simp only [alter] at h
    split at h
    · rcases List.mem_append.mp h with h | h
      · obtain ⟨v, -, rfl⟩ := List.mem_map.mp h; exact .inl rfl
      · exact .inr h
    · rcases List.mem_append.mp h with h | h
      · obtain ⟨v, -, rfl⟩ := List.mem_map.mp h; exact .inl rfl
      · exact .inr (List.mem_cons_of_mem _ h)
    · rcases List.mem_cons.mp h with rfl | h
      · exact .inr List.mem_cons_self
      · exact (ih h).imp id (List.mem_cons_of_mem _)

/-- An alteration keeps the keys in order. -/
theorem ascending_alter (key : Bytes) (f : Option α → Option α) {entries : List (Bytes × α)}
    (h : Ascending entries) : Ascending (alter key f entries) := by
  induction entries with
  | nil => cases hf : f none <;> simp [alter, hf, Ascending]
  | cons hd rest ih =>
    obtain ⟨k, v⟩ := hd
    obtain ⟨hk, hr⟩ := List.pairwise_cons.mp h
    simp only [alter]
    split
    · rename_i ho
      have ho := Bytes.order_eq_lt_iff.mp ho
      cases hf : f none with
      | none => simpa [hf] using h
      | some w =>
        simp only [Option.toList_some, List.map_cons, List.map_nil, List.singleton_append]
        exact List.pairwise_cons.mpr ⟨fun e he => (List.mem_cons.mp he).elim
          (fun e => e ▸ ho) (fun m => Bytes.lt_trans ho (hk _ m)), h⟩
    · rename_i ho
      have ho := Bytes.order_eq_eq_iff.mp ho
      subst ho
      cases hf : f (some v) with
      | none => simpa [hf, Ascending] using hr
      | some w =>
        simp only [Option.toList_some, List.map_cons, List.map_nil, List.singleton_append]
        exact List.pairwise_cons.mpr ⟨fun e he => hk e he, hr⟩
    · rename_i ho
      have ho := Bytes.order_eq_gt_iff.mp ho
      exact List.pairwise_cons.mpr ⟨fun e he => (mem_alter he).elim (fun e => e ▸ ho) (hk e), ih hr⟩

/-- A key before all others is not there. -/
theorem lookup_eq_none_of_lt {key : Bytes} {entries : List (Bytes × α)}
    (h : ∀ e ∈ entries, key < e.1) : entries.lookup key = none := by
  rw [List.lookup_eq_none_iff]
  intro e he
  rw [bne_iff_ne]
  intro hk
  exact Bytes.lt_irrefl _ (hk ▸ h e he)

/-- What is found under the altered key is what the alteration makes of it. -/
theorem lookup_alter_self (key : Bytes) (f : Option α → Option α) {entries : List (Bytes × α)}
    (h : Ascending entries) :
    (alter key f entries).lookup key = f (entries.lookup key) := by
  induction entries with
  | nil => cases hf : f none <;> simp [alter, hf]
  | cons hd rest ih =>
    obtain ⟨k, v⟩ := hd
    obtain ⟨hk, hr⟩ := List.pairwise_cons.mp h
    simp only [alter]
    split
    · rename_i ho
      have ho := Bytes.order_eq_lt_iff.mp ho
      have hn : List.lookup key ((k, v) :: rest) = none :=
        lookup_eq_none_of_lt fun e he => (List.mem_cons.mp he).elim
          (fun e => e ▸ ho) (fun m => Bytes.lt_trans ho (hk _ m))
      cases hf : f none <;> simp [hn, hf]
    · rename_i ho
      have ho := Bytes.order_eq_eq_iff.mp ho
      subst ho
      have hn : List.lookup key rest = none := lookup_eq_none_of_lt hk
      cases hf : f (some v) <;> simp [hn, hf]
    · rename_i ho
      have hne : (key == k) = false := by
        simp only [beq_eq_false_iff_ne, ne_eq]; rintro rfl; simp [Bytes.order_self] at ho
      simp [List.lookup_cons, hne, ih hr]

/-- Other keys find what they found before. -/
theorem lookup_alter_of_ne {key other : Bytes} (hne : other ≠ key) (f : Option α → Option α)
    (entries : List (Bytes × α)) : (alter key f entries).lookup other = entries.lookup other := by
  have hb : (other == key) = false := by simpa using hne
  induction entries with
  | nil => cases hf : f none <;> simp [alter, hf, List.lookup_cons, hb]
  | cons hd rest ih =>
    obtain ⟨k, v⟩ := hd
    simp only [alter]
    split
    · cases hf : f none <;> simp [List.lookup_cons, hb]
    · rename_i ho
      have ho := Bytes.order_eq_eq_iff.mp ho
      subst ho
      cases hf : f (some v) <;> simp [List.lookup_cons, hb]
    · simp [List.lookup_cons, ih]

/-- In ascending entries every entry is found under its key. -/
theorem lookup_of_mem {entries : List (Bytes × α)} (h : Ascending entries) {key : Bytes} {v : α}
    (hm : (key, v) ∈ entries) : entries.lookup key = some v := by
  induction entries with
  | nil => cases hm
  | cons hd rest ih =>
    obtain ⟨k, w⟩ := hd
    obtain ⟨hk, hr⟩ := List.pairwise_cons.mp h
    rcases List.mem_cons.mp hm with e | hm
    · cases e; simp
    · have : (key == k) = false := by
        rw [beq_eq_false_iff_ne]; intro e; exact Bytes.lt_irrefl key (by simpa [e] using hk _ hm)
      simp [List.lookup_cons, this, ih hr hm]

/-- What is found is an entry. -/
theorem mem_of_lookup {entries : List (Bytes × α)} {key : Bytes} {v : α}
    (h : entries.lookup key = some v) : (key, v) ∈ entries := by
  induction entries with
  | nil => cases h
  | cons hd rest ih =>
    obtain ⟨k, w⟩ := hd
    rw [List.lookup_cons] at h
    split at h
    · rename_i hk; rw [beq_iff_eq] at hk; cases h; subst hk; exact List.mem_cons_self
    · exact List.mem_cons_of_mem _ (ih h)

/-- Two ascending lists that find the same are the same. -/
theorem eq_of_lookup_eq {as bs : List (Bytes × α)} (ha : Ascending as) (hb : Ascending bs)
    (h : ∀ key, as.lookup key = bs.lookup key) : as = bs := by
  induction as generalizing bs with
  | nil =>
    cases bs with
    | nil => rfl
    | cons hd rest => obtain ⟨k, v⟩ := hd; have := h k; simp at this
  | cons hd rest ih =>
    obtain ⟨k, v⟩ := hd
    obtain ⟨hk, hr⟩ := List.pairwise_cons.mp ha
    cases bs with
    | nil => have := h k; simp at this
    | cons hd' rest' =>
      obtain ⟨k', v'⟩ := hd'
      obtain ⟨hk', hr'⟩ := List.pairwise_cons.mp hb
      have hmem : (k, v) ∈ (k', v') :: rest' :=
        mem_of_lookup ((h k).symm.trans (by simp))
      have hmem' : (k', v') ∈ (k, v) :: rest :=
        mem_of_lookup ((h k').trans (by simp))
      -- each of the first entries lies in the other list, so neither key is below the other
      have hhead : (k, v) = (k', v') := by
        rcases List.mem_cons.mp hmem with e | hm
        · exact e
        · rcases List.mem_cons.mp hmem' with e | hm'
          · exact e.symm
          · exact absurd (Bytes.lt_trans (hk' _ hm) (hk _ hm')) (Bytes.lt_irrefl _)
      cases hhead
      congr 1
      refine ih hr hr' fun key => ?_
      have := h key
      simp only [List.lookup_cons] at this
      cases hb : key == k with
      | true =>
        rw [beq_iff_eq] at hb; subst hb
        rw [lookup_eq_none_of_lt hk, lookup_eq_none_of_lt hk']
      | false => simpa [hb] using this

/-- Entries in key order, the last of equal keys staying. -/
def ofList (entries : List (Bytes × α)) : List (Bytes × α) :=
  entries.foldr (fun e sorted => alter e.1 (fun old => some (old.getD e.2)) sorted) []

/-- A table is in order however its entries come. -/
theorem ascending_ofList (entries : List (Bytes × α)) : Ascending (ofList entries) := by
  induction entries with
  | nil => exact List.Pairwise.nil
  | cons e rest ih => exact ascending_alter e.1 _ ih

/-- Entries already in key order stay as they are. -/
theorem ofList_of_ascending {entries : List (Bytes × α)} (h : Ascending entries) :
    ofList entries = entries := by
  induction entries with
  | nil => rfl
  | cons e rest ih =>
    obtain ⟨he, hr⟩ := List.pairwise_cons.mp h
    rw [ofList, List.foldr_cons, ← ofList, ih hr]
    cases rest with
    | nil => rfl
    | cons e' rest =>
      have : Bytes.order e.1 e'.1 = .lt := Bytes.order_eq_lt_iff.mpr (he _ List.mem_cons_self)
      simp [alter, this]

end Entries

/-! ### Tables -/

/-- A finite map from byte strings, with its entries in key order. -/
structure Table (α : Type) where
  entries : List (Bytes × α) := []
  ascending : Entries.Ascending entries := by exact List.Pairwise.nil

namespace Table

variable {α : Type}

def empty : Table α := {}

instance : EmptyCollection (Table α) := ⟨empty⟩

instance : Inhabited (Table α) := ⟨empty⟩

instance [DecidableEq α] : DecidableEq (Table α) := fun a b =>
  if h : a.entries = b.entries then .isTrue (by cases a; cases b; cases h; rfl)
  else .isFalse fun e => h (e ▸ rfl)

/-- What is kept under a key. -/
def get? (t : Table α) (key : Bytes) : Option α := t.entries.lookup key

def contains (t : Table α) (key : Bytes) : Bool := (t.get? key).isSome

/-- The entries, in the order of their keys. -/
def toList (t : Table α) : List (Bytes × α) := t.entries

/-- The keys, in order. -/
def keys (t : Table α) : List Bytes := t.entries.map (·.1)

/-- The values, in the order of their keys. -/
def values (t : Table α) : List α := t.entries.map (·.2)

def size (t : Table α) : Nat := t.entries.length

/-- Gives the value of a key, if there is one, to `f`, and keeps what `f` answers. -/
def alter (t : Table α) (key : Bytes) (f : Option α → Option α) : Table α :=
  ⟨Entries.alter key f t.entries, Entries.ascending_alter key f t.ascending⟩

/-- Keeps a value under a key, in the place of the one that was there. -/
def insert (t : Table α) (key : Bytes) (v : α) : Table α := t.alter key fun _ => some v

/-- Adds an entry unless the key has one. -/
def insertNew (t : Table α) (key : Bytes) (v : α) : Table α :=
  t.alter key fun old => some (old.getD v)

/-- Keeps nothing under a key any more. -/
def erase (t : Table α) (key : Bytes) : Table α := t.alter key fun _ => none

/-- Changes what is kept under a key, if there is something. -/
def modify (t : Table α) (key : Bytes) (f : α → α) : Table α := t.alter key (·.map f)

/-- The entries that satisfy a test. -/
def filter (t : Table α) (keep : Bytes → α → Bool) : Table α :=
  ⟨t.entries.filter fun e => keep e.1 e.2, List.Pairwise.filter _ t.ascending⟩

/-- A table of entries in any order, the last of equal keys staying. -/
def ofList (entries : List (Bytes × α)) : Table α :=
  ⟨Entries.ofList entries, Entries.ascending_ofList entries⟩

/-- Adds every entry of `u` to `t`, replacing those with the same key. -/
def union (t u : Table α) : Table α := u.entries.foldl (fun t e => t.insert e.1 e.2) t

@[simp] theorem get?_empty (key : Bytes) : (empty : Table α).get? key = none := rfl

theorem get?_alter_self (t : Table α) (key : Bytes) (f : Option α → Option α) :
    (t.alter key f).get? key = f (t.get? key) := Entries.lookup_alter_self key f t.ascending

theorem get?_alter_of_ne {key other : Bytes} (hne : other ≠ key) (t : Table α)
    (f : Option α → Option α) : (t.alter key f).get? other = t.get? other :=
  Entries.lookup_alter_of_ne hne f t.entries

/-- Tables that find the same are the same. -/
theorem ext_get? {t u : Table α} (h : ∀ key, t.get? key = u.get? key) : t = u := by
  cases t with
  | mk as ha =>
    cases u with
    | mk bs hb =>
      have : as = bs := Entries.eq_of_lookup_eq ha hb h
      cases this
      rfl

/-- The entries are just what is found. -/
theorem mem_toList_iff {t : Table α} {key : Bytes} {v : α} :
    (key, v) ∈ t.toList ↔ t.get? key = some v :=
  ⟨Entries.lookup_of_mem t.ascending, Entries.mem_of_lookup⟩

end Table

end FleetControl
