import FleetControl.Table

/-!
# Sharded tables

A sharded table keeps each key in the one of several tables that a hash of the key selects, so that
callers with different keys need not wait for each other.  `get?_alter_self` and `get?_alter_of_ne`
are the laws of one table: which shard holds a key shows nowhere.
-/

namespace FleetControl

/-- Tables that share the keys out by a hash. -/
structure Sharded (α : Type) where
  hash : Bytes → Nat
  shards : List (Table α)
  placed : ∀ i, ∀ t ∈ shards[i]?, ∀ key, (t.get? key).isSome → hash key % shards.length = i
  shared : 0 < shards.length

namespace Sharded

variable {α : Type}

/-- The FNV-1a hash, which spreads keys evenly over the shards. -/
def spread (key : Bytes) : Nat :=
  (key.foldl (fun h b => (h ^^^ b.toUInt64) * 0x100000001b3) (0xcbf29ce484222325 : UInt64)).toNat

/-- A number of empty shards; there has to be one at least. -/
def empty (hash : Bytes → Nat) (count : Nat) (h : 0 < count) : Sharded α where
  hash := hash
  shards := List.replicate count Table.empty
  placed := by
    intro i t ht key hk
    simp only [Option.mem_def, List.getElem?_eq_some_iff, List.getElem_replicate] at ht
    obtain ⟨-, rfl⟩ := ht
    simp at hk
  shared := by simpa using h

/-- The place of a key's shard. -/
def place (s : Sharded α) (key : Bytes) : Nat := s.hash key % s.shards.length

theorem place_lt (s : Sharded α) (key : Bytes) : s.place key < s.shards.length :=
  Nat.mod_lt _ s.shared

/-- The shard that a key belongs to. -/
def shard (s : Sharded α) (key : Bytes) : Table α := s.shards[s.place key]?.getD Table.empty

def get? (s : Sharded α) (key : Bytes) : Option α := (s.shard key).get? key

def contains (s : Sharded α) (key : Bytes) : Bool := (s.get? key).isSome

/-- Gives the value of a key, if there is one, to `f`, and keeps what `f` answers. -/
def alter (s : Sharded α) (key : Bytes) (f : Option α → Option α) : Sharded α where
  hash := s.hash
  shards := s.shards.set (s.place key) ((s.shard key).alter key f)
  placed := by
    intro i t ht k hk
    rw [List.length_set]
    rw [List.getElem?_set] at ht
    split at ht
    · rename_i hi
      simp only [s.place_lt key, if_true, Option.mem_def, Option.some.injEq] at ht
      subst ht
      by_cases he : k = key
      · subst he; exact hi
      · rw [Table.get?_alter_of_ne he] at hk
        rw [← hi]
        exact s.placed (s.place key) (s.shard key)
          (by simp [shard, List.getElem?_eq_getElem (s.place_lt key)]) k hk
    · exact s.placed i t ht k hk
  shared := by simpa using s.shared

def insert (s : Sharded α) (key : Bytes) (v : α) : Sharded α := s.alter key fun _ => some v

def erase (s : Sharded α) (key : Bytes) : Sharded α := s.alter key fun _ => none

def modify (s : Sharded α) (key : Bytes) (f : α → α) : Sharded α := s.alter key (·.map f)

def size (s : Sharded α) : Nat := s.shards.foldl (fun n t => n + t.size) 0

/-- Every entry, shard after shard. -/
def entries (s : Sharded α) : List (Bytes × α) := s.shards.flatMap Table.toList

/-- One table that holds everything, and so lists it in key order. -/
def toTable (s : Sharded α) : Table α := s.shards.foldl Table.union Table.empty

theorem place_alter (s : Sharded α) (key other : Bytes) (f : Option α → Option α) :
    (s.alter key f).place other = s.place other := by simp [place, alter]

theorem shard_alter (s : Sharded α) (key other : Bytes) (f : Option α → Option α) :
    (s.alter key f).shard other =
      if s.place key = s.place other then (s.shard key).alter key f else s.shard other := by
  rw [shard, place_alter]
  simp only [alter, List.getElem?_set]
  split
  · rename_i h; rw [if_pos (s.place_lt key)]; rfl
  · rfl

theorem get?_alter_self (s : Sharded α) (key : Bytes) (f : Option α → Option α) :
    (s.alter key f).get? key = f (s.get? key) := by
  rw [get?, shard_alter, if_pos rfl, Table.get?_alter_self]; rfl

theorem get?_alter_of_ne {key other : Bytes} (hne : other ≠ key) (s : Sharded α)
    (f : Option α → Option α) : (s.alter key f).get? other = s.get? other := by
  rw [get?, shard_alter]
  split
  · rename_i h; rw [Table.get?_alter_of_ne hne, get?, shard, shard, h]
  · rfl

end Sharded

end FleetControl
