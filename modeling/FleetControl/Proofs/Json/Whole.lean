import FleetControl.Proofs.Json.Reader

/-!
# Whole numbers in JSON — what a word keeps of them

A value holds a whole number (`Json.whole?`) if it is one of 64 bits, with a sign or without.  Read
as a signed word it is what the word keeps of that number (`int64?_eq`): the number itself exactly
if it is not past the largest signed word (`toInt_ofInt_eq_iff`), and a negative one otherwise, so a
word that is not negative is what was there (`int64?_eq_some_iff`).

The number is the one that the literal says (`spells_whole`): wherever the digits of a whole number
of 64 bits stand as a value, that value holds the number.
-/

namespace FleetControl.Json

variable {v : Json} {z : ℤ}

/-- The whole number that a value holds. -/
def whole? : Json → Option ℤ
  | .unsigned n => some n.toNat
  | .signed n => some n.toInt
  | _ => none

@[simp] theorem whole?_unsigned (n : UInt64) : (unsigned n).whole? = some (n.toNat : ℤ) := rfl

theorem whole?_range (h : v.whole? = some z) : -2 ^ 63 ≤ z ∧ z < 2 ^ 64 := by
  cases v with
  | unsigned n =>
      cases h
      have hword : n.toNat < 2 ^ 64 := n.toNat_lt
      constructor <;> omega
  | signed n =>
      cases h
      have hmin := n.le_toInt
      have hmax := n.toInt_lt
      constructor <;> omega
  | null | bool | double | str | arr | obj => cases h

/-! ### As a signed word -/

/-- A signed word holds what is left of a whole number. -/
theorem int64?_eq (v : Json) : v.int64? = v.whole?.map Int64.ofInt := by
  cases v with
  | unsigned n =>
      have hword : n.toInt64 = Int64.ofInt n.toNat := by
        rw [Int64.ofInt_eq_ofNat, ← UInt64.toInt64_ofNat', UInt64.ofNat_toNat]
      exact congrArg some hword
  | signed n => exact congrArg some (Int64.ofInt_toInt n).symm
  | null | bool | double | str | arr | obj => rfl

theorem toInt_ofInt_eq_iff (hmin : -2 ^ 63 ≤ z) (hmax : z < 2 ^ 64) :
    (Int64.ofInt z).toInt = z ↔ z < 2 ^ 63 := by
  have hsize : (Int64.size : ℤ) = 2 ^ 64 := rfl
  rw [Int64.toInt_ofInt, Int.bmod_def, hsize]
  constructor
  · split <;> omega
  · intro h
    split <;> omega

/-- What is past the largest signed word turns negative. -/
theorem toInt_ofInt_neg (hmin : 2 ^ 63 ≤ z) (hmax : z < 2 ^ 64) : (Int64.ofInt z).toInt < 0 := by
  have hsize : (Int64.size : ℤ) = 2 ^ 64 := rfl
  rw [Int64.toInt_ofInt, Int.bmod_def, hsize]
  split <;> omega

/-- So a word that is not negative is what was there. -/
theorem int64?_eq_some_iff {n : Int64} (h₀ : 0 ≤ n) :
    v.int64? = some n ↔ v.whole? = some n.toInt := by
  rw [int64?_eq]
  constructor
  · intro h
    obtain ⟨z, hz, rfl⟩ := Option.map_eq_some_iff.mp h
    obtain ⟨hmin, hmax⟩ := whole?_range hz
    have hnonneg : 0 ≤ (Int64.ofInt z).toInt := Int64.le_iff_toInt_le.mp h₀
    have hfits : z < 2 ^ 63 := by
      by_contra hlarge
      exact Int.not_lt.mpr hnonneg (toInt_ofInt_neg (Int.not_lt.mp hlarge) hmax)
    rw [hz, (toInt_ofInt_eq_iff hmin hmax).mpr hfits]
  · intro h
    rw [h, Option.map_some, Int64.ofInt_toInt]

theorem whole?_ofInt64 (n : Int64) : (ofInt64 n).whole? = some n.toInt := by
  rw [ofInt64]
  split
  · rfl
  · rename_i h
    have h₀ : 0 ≤ n := Int64.not_lt.mp h
    have hnonneg : 0 ≤ n.toInt := Int64.le_iff_toInt_le.mp h₀
    rw [whole?_unsigned, Int64.toNat_toUInt64_of_le h₀, ← Int64.toNat_toInt,
      Int.toNat_of_nonneg hnonneg]

/-! ### As a literal -/

/-- The digits of a whole number of 64 bits stand for that number, wherever a value may stand. -/
theorem spells_whole (hmin : -2 ^ 63 ≤ z) (hmax : z < 2 ^ 64) :
    ∃ v, Spells (Decimal.ofInt z) v ∧ v.whole? = some z := by
  cases z with
  | ofNat n =>
      have hn : n < 2 ^ 64 := Int.ofNat_lt.mp hmax
      refine ⟨_, spells_ofNat hn, ?_⟩
      rw [whole?_unsigned, UInt64.toNat_ofNat_of_lt' hn]
      rfl
  | negSucc n =>
      have hword : (Int64.ofInt (Int.negSucc n)).toInt = Int.negSucc n :=
        (toInt_ofInt_eq_iff hmin hmax).mpr (by omega)
      have hspells := spells_ofInt (Int64.ofInt (Int.negSucc n))
      rw [hword] at hspells
      exact ⟨_, hspells, by rw [whole?_ofInt64, hword]⟩

end FleetControl.Json
