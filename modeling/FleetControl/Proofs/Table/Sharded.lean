import FleetControl.Proofs.Table
import FleetControl.Table.Sharded
import Mathlib.Data.List.Nodup

/-!
# Sharded tables — what changes do to what is found

The laws of one table (`get?_insert`, `get?_erase`, `get?_modify`), each from the law of `alter`.  A
sharded table is known from what it finds too (`ext_get?`), so changes at different keys commute
(`alter_comm`).  The one table that holds everything finds what the shards find (`get?_toTable`), and
holds every entry of theirs once (`entries_perm`).
-/

namespace FleetControl.Sharded

variable {α : Type}

theorem get?_alter (s : Sharded α) (key other : Bytes) (f : Option α → Option α) :
    (s.alter key f).get? other = if other = key then f (s.get? other) else s.get? other := by
  by_cases h : other = key
  · subst h
    rw [if_pos rfl]
    exact get?_alter_self s other f
  · rw [if_neg h]
    exact get?_alter_of_ne h s f

theorem get?_insert (s : Sharded α) (key other : Bytes) (v : α) :
    (s.insert key v).get? other = if other = key then some v else s.get? other :=
  s.get?_alter key other _

theorem get?_erase (s : Sharded α) (key other : Bytes) :
    (s.erase key).get? other = if other = key then none else s.get? other :=
  s.get?_alter key other _

theorem get?_modify (s : Sharded α) (key other : Bytes) (f : α → α) :
    (s.modify key f).get? other =
      if other = key then (s.get? other).map f else s.get? other :=
  s.get?_alter key other _

theorem get?_empty (hash : Bytes → Nat) (count : Nat) (h : 0 < count) (key : Bytes) :
    (empty hash count h : Sharded α).get? key = none := by
  have hshards : (empty hash count h : Sharded α).shards = List.replicate count Table.empty := rfl
  rw [get?, shard, hshards, List.getElem?_replicate]
  split <;> rfl

/-! ### What a table is known from -/

/-- The shards apart from a key's own do not hold the key. -/
theorem get?_of_ne_place (s : Sharded α) {i : Nat} {t : Table α} (ht : s.shards[i]? = some t)
    {key : Bytes} (hi : i ≠ s.place key) : t.get? key = none := by
  cases hv : t.get? key with
  | none => rfl
  | some v => exact absurd (s.placed i t ht key (by rw [hv]; rfl)).symm hi

/-- Tables with as many shards and one hash that find the same are the same. -/
theorem ext_get? {s t : Sharded α} (hh : s.hash = t.hash)
    (hn : s.shards.length = t.shards.length) (h : ∀ key, s.get? key = t.get? key) : s = t := by
  have hplace (key : Bytes) : s.place key = t.place key := by rw [place, place, hh, hn]
  have hget (u : Sharded α) {i : Nat} (hi : i < u.shards.length) (key : Bytes) :
      (u.shards[i]).get? key = if i = u.place key then u.get? key else none := by
    split
    · rename_i hp
      subst hp
      rw [get?, shard, List.getElem?_eq_getElem hi, Option.getD_some]
    · rename_i hp
      exact u.get?_of_ne_place (List.getElem?_eq_getElem hi) hp
  have hshards : s.shards = t.shards := List.ext_getElem hn fun i hi hi' =>
    Table.ext_get? fun key => by rw [hget s hi, hget t hi', hplace, h]
  cases s
  cases t
  cases hh
  cases hshards
  rfl

theorem alter_congr {s : Sharded α} {key : Bytes} {f g : Option α → Option α}
    (h : f (s.get? key) = g (s.get? key)) : s.alter key f = s.alter key g := by
  refine ext_get? rfl (by simp [alter]) fun other => ?_
  rw [get?_alter, get?_alter]
  split
  · rename_i hk
    rw [hk, h]
  · rfl

theorem alter_eq_self {s : Sharded α} {key : Bytes} {f : Option α → Option α}
    (h : f (s.get? key) = s.get? key) : s.alter key f = s := by
  refine ext_get? rfl (by simp [alter]) fun other => ?_
  rw [get?_alter]
  split
  · rename_i hk
    rw [hk, h]
  · rfl

theorem alter_alter (s : Sharded α) (key : Bytes) (f g : Option α → Option α) :
    (s.alter key f).alter key g = s.alter key fun v => g (f v) := by
  refine ext_get? rfl (by simp [alter]) fun other => ?_
  rw [get?_alter, get?_alter, get?_alter]
  split <;> rfl

/-- Changes commute at different keys, and at one key if they commute there. -/
theorem alter_comm {key other : Bytes} {f g : Option α → Option α}
    (h : key = other → ∀ v, f (g v) = g (f v)) (s : Sharded α) :
    (s.alter key f).alter other g = (s.alter other g).alter key f := by
  refine ext_get? rfl (by simp [alter]) fun k => ?_
  simp only [get?_alter]
  by_cases h₁ : k = key <;> by_cases h₂ : k = other
  · rw [if_pos h₂, if_pos h₁, if_pos h₁, if_pos h₂, h (h₁.symm.trans h₂)]
  · rw [if_neg h₂, if_pos h₁, if_pos h₁, if_neg h₂]
  · rw [if_pos h₂, if_neg h₁, if_neg h₁, if_pos h₂]
  · rw [if_neg h₂, if_neg h₁, if_neg h₁, if_neg h₂]

/-- What is there is changed as if it were put there anew. -/
theorem modify_eq_insert {s : Sharded α} {key : Bytes} {v : α} (h : s.get? key = some v)
    (f : α → α) : s.modify key f = s.insert key (f v) :=
  alter_congr (by rw [h, Option.map_some])

/-! ### One table of all -/

theorem get?_foldl_union_of_none {tables : List (Table α)} {key : Bytes}
    (h : ∀ u ∈ tables, u.get? key = none) (t : Table α) :
    (tables.foldl Table.union t).get? key = t.get? key := by
  induction tables generalizing t with
  | nil => rfl
  | cons u us ih =>
      obtain ⟨hu, hus⟩ := List.forall_mem_cons.mp h
      rw [List.foldl_cons, ih hus, Table.get?_union, hu, Option.none_or]

theorem get?_toTable (s : Sharded α) (key : Bytes) : s.toTable.get? key = s.get? key := by
  have hlt := s.place_lt key
  have hshards : s.shards = s.shards.take (s.place key) ++
      s.shards[s.place key] :: s.shards.drop (s.place key + 1) := by
    rw [List.getElem_cons_drop, List.take_append_drop]
  have hshard : s.shard key = s.shards[s.place key] := by
    rw [shard, List.getElem?_eq_getElem hlt, Option.getD_some]
  have hfront : ∀ u ∈ s.shards.take (s.place key), u.get? key = none := by
    intro u hu
    obtain ⟨i, hi, rfl⟩ := List.getElem_of_mem hu
    rw [List.length_take] at hi
    rw [List.getElem_take]
    exact s.get?_of_ne_place (List.getElem?_eq_getElem _) (by omega)
  have hback : ∀ u ∈ s.shards.drop (s.place key + 1), u.get? key = none := by
    intro u hu
    obtain ⟨i, hi, rfl⟩ := List.getElem_of_mem hu
    rw [List.getElem_drop]
    exact s.get?_of_ne_place (List.getElem?_eq_getElem _) (by omega)
  rw [toTable, hshards, List.foldl_append, List.foldl_cons, get?_foldl_union_of_none hback,
    Table.get?_union, get?_foldl_union_of_none hfront, get?, hshard, Table.get?_empty,
    Option.or_none]

/-! ### Every entry -/

theorem mem_entries_iff (s : Sharded α) {key : Bytes} {v : α} :
    (key, v) ∈ s.entries ↔ s.get? key = some v := by
  rw [entries, List.mem_flatMap]
  constructor
  · rintro ⟨t, ht, hv⟩
    obtain ⟨i, hi⟩ := List.mem_iff_getElem?.mp ht
    have hv : t.get? key = some v := Table.mem_toList_iff.mp hv
    have hplace : s.place key = i := s.placed i t hi key (by rw [hv]; rfl)
    rw [get?, shard, hplace, hi]
    exact hv
  · intro hv
    have hi := List.getElem?_eq_getElem (s.place_lt key)
    refine ⟨_, List.mem_of_getElem? hi, Table.mem_toList_iff.mpr ?_⟩
    rwa [get?, shard, hi] at hv

theorem entries_nodup (s : Sharded α) : s.entries.Nodup := by
  rw [entries, List.nodup_flatMap]
  refine ⟨fun t _ => t.toList_nodup, List.pairwise_iff_getElem.mpr fun i j hi hj hlt => ?_⟩
  rintro ⟨key, v⟩ hv hv'
  have hplace (k : Nat) (hk : k < s.shards.length) (h : (key, v) ∈ s.shards[k].toList) :
      s.place key = k :=
    s.placed k _ (List.getElem?_eq_getElem hk) key (by rw [Table.mem_toList_iff.mp h]; rfl)
  exact absurd ((hplace i hi hv).symm.trans (hplace j hj hv')) (Nat.ne_of_lt hlt)

/-- All entries, shard after shard, are those of the one table. -/
theorem entries_perm (s : Sharded α) : s.entries.Perm s.toTable.toList := by
  refine (List.perm_ext_iff_of_nodup s.entries_nodup s.toTable.toList_nodup).mpr ?_
  rintro ⟨key, v⟩
  rw [s.mem_entries_iff, Table.mem_toList_iff, get?_toTable]

theorem size_toTable (s : Sharded α) : s.toTable.size = s.size := by
  have hsum : s.entries.length = s.size := by
    rw [entries, List.length_flatMap, size, List.sum_eq_foldl, List.foldl_map]
    rfl
  rw [← hsum, s.entries_perm.length_eq]
  rfl

end FleetControl.Sharded
