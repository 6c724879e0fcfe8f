import FleetControl.Number.Double
import FleetControl.Proofs.Number.Decimal

/-!
# Texts of doubles — their characters
-/

namespace FleetControl.Double

/-- Whether a byte can stand in the text of a number that was written. -/
def isNumberByte (b : UInt8) : Bool :=
  Decimal.isDigit b || b == 0x2d || b == 0x2e || b == 0x65 || b == 0x2b

theorem isNumberByte_of_isDigit {b : UInt8} (h : Decimal.isDigit b = true) :
    isNumberByte b = true := by
  simp [isNumberByte, h]

theorem isDigit_of_mem_shortest (x : Double) : ∀ b ∈ x.shortest.1, Decimal.isDigit b = true := by
  intro b hb
  simp only [shortest] at hb
  split at hb
  · rw [List.mem_singleton.mp hb]; rfl
  · rename_i n power _
    have hmem := (List.dropWhile_sublist _).subset (List.mem_reverse.mp hb)
    exact Decimal.isDigit_of_mem_ofNat (List.mem_reverse.mp hmem)

theorem isNumberByte_of_mem_sizeText {digits : Bytes} (h : ∀ b ∈ digits, Decimal.isDigit b = true)
    (point : Int) : ∀ b ∈ sizeText digits point, isNumberByte b = true := by
  have hd : ∀ b ∈ digits, isNumberByte b = true := fun b hb => isNumberByte_of_isDigit (h b hb)
  have htake (n : ℕ) : ∀ b ∈ digits.take n, isNumberByte b = true := fun b hb =>
    hd b (List.mem_of_mem_take hb)
  have hdrop (n : ℕ) : ∀ b ∈ digits.drop n, isNumberByte b = true := fun b hb =>
    hd b (List.mem_of_mem_drop hb)
  have hz (n : ℕ) : ∀ b ∈ List.replicate n (0x30 : UInt8), isNumberByte b = true := by
    intro b hb
    rw [List.eq_of_mem_replicate hb]
    rfl
  have hexponent (n : ℕ) : ∀ b ∈ Decimal.fill 2 (Decimal.ofNat n), isNumberByte b = true :=
    fun b hb => isNumberByte_of_isDigit
      (Decimal.isDigit_of_mem_fill (fun _ => Decimal.isDigit_of_mem_ofNat) hb)
  rw [sizeText]
  simp only
  -- the point is behind the digits, among them or in front of them, or there is an exponent
  split
  · exact List.forall_mem_append.mpr ⟨List.forall_mem_append.mpr ⟨hd, hz _⟩,
      List.all_eq_true.mp rfl⟩
  · split
    · exact List.forall_mem_append.mpr ⟨htake _, List.forall_mem_cons.mpr ⟨rfl, hdrop _⟩⟩
    · split
      · exact List.forall_mem_append.mpr
          ⟨List.forall_mem_append.mpr ⟨List.all_eq_true.mp rfl, hz _⟩, hd⟩
      · refine List.forall_mem_append.mpr ⟨?_, List.forall_mem_cons.mpr ⟨rfl,
          List.forall_mem_cons.mpr ⟨?_, hexponent _⟩⟩⟩
        · split
          · exact hd
          · exact List.forall_mem_append.mpr ⟨htake _, List.forall_mem_cons.mpr ⟨rfl, hdrop _⟩⟩
        · split <;> rfl

/-- The text of a double holds nothing but digits, signs, a point and the letter of an exponent. -/
theorem isNumberByte_of_mem_toText (x : Double) : ∀ b ∈ x.toText, isNumberByte b = true := by
  have hsize : ∀ b ∈ (if x.bits <<< 1 = 0 then utf8 "0.0" else sizeText x.shortest.1 x.shortest.2),
      isNumberByte b = true := by
    split
    · exact List.all_eq_true.mp rfl
    · exact isNumberByte_of_mem_sizeText x.isDigit_of_mem_shortest _
  have e : x.toText = if x.isNegative then
      0x2d :: (if x.bits <<< 1 = 0 then utf8 "0.0" else sizeText x.shortest.1 x.shortest.2)
      else (if x.bits <<< 1 = 0 then utf8 "0.0" else sizeText x.shortest.1 x.shortest.2) := rfl
  rw [e]
  split
  · exact List.forall_mem_cons.mpr ⟨rfl, hsize⟩
  · exact hsize

end FleetControl.Double
