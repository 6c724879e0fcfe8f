import FleetControl.Number.Decimal
import Mathlib.Data.List.Induction
import Mathlib.Tactic.Ring

/-!
# Decimal text — digits and the numbers they stand for

`ofNat` writes digits that `toNat` reads back (`toNat_ofNat`), without a zero in front
(`head?_ofNat_ne_zero`).  Digit strings of one length are ordered as bytes exactly as their numbers
are (`lt_iff_toNat_lt`), and filling up with zeros keeps the number, so filled numbers compare as
numbers (`fill_ofNat_lt_iff`).
-/

namespace FleetControl.Decimal

/-! ### One digit -/

/-- The digit of a number below ten. -/
def digit (d : ℕ) : UInt8 := (48 + d).toUInt8

theorem toNat_digit {d : ℕ} (h : d < 10) : (digit d).toNat = 48 + d := by
  simp only [digit, Nat.toUInt8_eq, UInt8.toNat_ofNat']
  omega

theorem isDigit_iff {b : UInt8} : isDigit b = true ↔ 48 ≤ b.toNat ∧ b.toNat ≤ 57 := by
  simp [isDigit, UInt8.le_iff_toNat_le]

theorem isDigit_digit {d : ℕ} (h : d < 10) : isDigit (digit d) = true := by
  rw [isDigit_iff, toNat_digit h]
  omega

/-- Digits by their last one. -/
theorem ofNat_eq (n : ℕ) :
    ofNat n = (if n < 10 then [] else ofNat (n / 10)) ++ [digit (n % 10)] := by
  rw [ofNat, Nat.toDigits_eq_if (by decide)]
  split
  · rename_i h
    rw [Nat.mod_eq_of_lt h]
    simp [digit, Nat.toNat_digitChar_of_lt_ten h]
  · have h := Nat.mod_lt n (by decide : 10 > 0)
    simp [digit, ofNat, Nat.toNat_digitChar_of_lt_ten h]

theorem ofNat_ne_nil (n : ℕ) : ofNat n ≠ [] := by
  rw [ofNat_eq]
  simp

/-- A number is written in digits. -/
theorem isDigit_of_mem_ofNat {n : ℕ} {b : UInt8} (h : b ∈ ofNat n) : isDigit b = true := by
  induction n using Nat.strongRecOn with
  | _ n ih =>
      rw [ofNat_eq, List.mem_append] at h
      rcases h with h | h
      · split at h
        · cases h
        · exact ih _ (by omega) h
      · rw [List.mem_singleton.mp h]
        exact isDigit_digit (Nat.mod_lt _ (by decide))

/-- A number below a power of ten has no more digits than that has zeros. -/
theorem length_ofNat_le {n w : ℕ} (hw : 0 < w) (h : n < 10 ^ w) : (ofNat n).length ≤ w := by
  simpa [ofNat] using (Nat.length_toDigits_le_iff (by decide) hw).mpr h

/-- One more digit counts as the last. -/
theorem toNat_append_singleton (ds : Bytes) (d : UInt8) :
    toNat (ds ++ [d]) = 10 * toNat ds + (d.toNat - 48) := by
  simp [toNat]

/-- Reading undoes writing. -/
theorem toNat_ofNat (n : ℕ) : toNat (ofNat n) = n := by
  induction n using Nat.strongRecOn with
  | _ n ih =>
      have hd := toNat_digit (Nat.mod_lt n (by decide : 10 > 0))
      rw [ofNat_eq, toNat_append_singleton, hd]
      split
      · simp only [toNat, List.foldl_nil]; omega
      · rw [ih _ (by omega)]; omega

theorem head?_ofNat {n : ℕ} (h : 10 ≤ n) : (ofNat n).head? = (ofNat (n / 10)).head? := by
  rw [ofNat_eq, if_neg (by omega), List.head?_append]
  cases e : (ofNat (n / 10)).head? with
  | none => exact absurd (List.head?_eq_none_iff.mp e) (ofNat_ne_nil _)
  | some d => rfl

/-- Only zero is written with a zero in front. -/
theorem head?_ofNat_ne_zero {n : ℕ} (h : n ≠ 0) : (ofNat n).head? ≠ some 0x30 := by
  induction n using Nat.strongRecOn with
  | _ n ih =>
      by_cases h10 : n < 10
      · rw [ofNat_eq, if_pos h10]
        intro e
        have e := congrArg UInt8.toNat (Option.some.inj e)
        rw [toNat_digit (Nat.mod_lt _ (by decide))] at e
        simp only [UInt8.reduceToNat] at e
        omega
      · rw [head?_ofNat (by omega)]
        exact ih _ (by omega) (by omega)

/-! ### Order -/

theorem toNat_cons (d : UInt8) (ds : Bytes) :
    toNat (d :: ds) = (d.toNat - 48) * 10 ^ ds.length + toNat ds := by
  induction ds using List.reverseRecOn with
  | nil => simp [toNat]
  | append_singleton ds e ih =>
      rw [← List.cons_append, toNat_append_singleton, toNat_append_singleton, ih,
        List.length_append, List.length_singleton, pow_succ]
      ring

/-- Digits in front count for as many places as there are behind them. -/
theorem toNat_append (as bs : Bytes) :
    toNat (as ++ bs) = toNat as * 10 ^ bs.length + toNat bs := by
  induction bs using List.reverseRecOn with
  | nil => simp [toNat]
  | append_singleton bs b ih =>
      rw [← List.append_assoc, toNat_append_singleton, toNat_append_singleton, ih,
        List.length_append, List.length_singleton, pow_succ]
      ring

/-- Digits stand for less than the power of ten of their length. -/
theorem toNat_lt {ds : Bytes} (h : ∀ b ∈ ds, isDigit b = true) : toNat ds < 10 ^ ds.length := by
  induction ds using List.reverseRecOn with
  | nil => simp [toNat]
  | append_singleton ds d ih =>
      have hd := isDigit_iff.mp (h d (by simp))
      have := ih fun b hb => h b (by simp [hb])
      rw [toNat_append_singleton, List.length_append, List.length_singleton, pow_succ]
      omega

/-- Digit strings of one length are ordered as the numbers they stand for. -/
theorem lt_iff_toNat_lt {as bs : Bytes} (hl : as.length = bs.length)
    (ha : ∀ b ∈ as, isDigit b = true) (hb : ∀ b ∈ bs, isDigit b = true) :
    as < bs ↔ toNat as < toNat bs := by
  induction as generalizing bs with
  | nil => rw [List.eq_nil_of_length_eq_zero hl.symm]; simp [toNat]
  | cons a as ih =>
      cases bs with
      | nil => cases hl
      | cons b bs =>
          simp only [List.length_cons, Nat.add_right_cancel_iff] at hl
          simp only [List.forall_mem_cons, isDigit_iff] at ha hb
          have hA : toNat as < 10 ^ as.length := toNat_lt fun c hc => isDigit_iff.mpr (ha.2 c hc)
          have hB : toNat bs < 10 ^ bs.length := toNat_lt fun c hc => isDigit_iff.mpr (hb.2 c hc)
          rw [← hl] at hB
          rw [List.cons_lt_cons_iff, ih hl (fun c hc => isDigit_iff.mpr (ha.2 c hc))
            fun c hc => isDigit_iff.mpr (hb.2 c hc), toNat_cons, toNat_cons, ← hl,
            UInt8.lt_iff_toNat_lt, ← UInt8.toNat_inj]
          obtain ⟨⟨ha₁, -⟩, -⟩ := ha
          obtain ⟨⟨hb₁, -⟩, -⟩ := hb
          -- the digits behind the first one never make up for a difference of the first
          rcases Nat.lt_trichotomy a.toNat b.toNat with h | h | h
          · have : (a.toNat - 48 + 1) * 10 ^ as.length ≤ (b.toNat - 48) * 10 ^ as.length :=
              Nat.mul_le_mul_right _ (by omega)
            rw [Nat.add_mul] at this
            constructor
            · intro _; omega
            · intro _; exact .inl h
          · simp [h]
          · have : (b.toNat - 48 + 1) * 10 ^ as.length ≤ (a.toNat - 48) * 10 ^ as.length :=
              Nat.mul_le_mul_right _ (by omega)
            rw [Nat.add_mul] at this
            constructor
            · intro h'; omega
            · intro _; omega

/-- Digits that do not begin with zero stand for a number as long as they are. -/
theorem le_toNat {ds : Bytes} (h : ∀ b ∈ ds, isDigit b = true) (hne : ds ≠ [])
    (hz : ds.head? ≠ some 0x30) : 10 ^ (ds.length - 1) ≤ toNat ds := by
  cases ds with
  | nil => exact absurd rfl hne
  | cons d rest =>
      obtain ⟨hlow, -⟩ := isDigit_iff.mp (List.forall_mem_cons.mp h).1
      have hd : d.toNat ≠ 48 := fun e => hz (congrArg some (UInt8.toNat_inj.mp e))
      rw [toNat_cons, List.length_cons, Nat.add_sub_cancel]
      exact Nat.le_trans (Nat.le_mul_of_pos_left _ (by omega)) (Nat.le_add_right _ _)

/-! ### Filling up with zeros -/

/-- Zeros in front do not count. -/
theorem toNat_replicate_append (k : ℕ) (ds : Bytes) :
    toNat (List.replicate k 0x30 ++ ds) = toNat ds := by
  induction k with
  | zero => rfl
  | succ k ih => rw [List.replicate_succ, List.cons_append, toNat_cons, ih]; simp

/-- Zeros in front do not count. -/
theorem toNat_dropWhile (ds : Bytes) : toNat (ds.dropWhile (· == 0x30)) = toNat ds := by
  induction ds with
  | nil => rfl
  | cons d rest ih =>
      rw [List.dropWhile_cons]
      split
      · rename_i hd
        rw [ih, toNat_cons, beq_iff_eq.mp hd]
        simp
      · rfl

/-- Zeros behind move digits in front of the point. -/
theorem toNat_append_replicate (ds : Bytes) (k : ℕ) :
    toNat (ds ++ List.replicate k 0x30) = toNat ds * 10 ^ k := by
  have hz := toNat_replicate_append k []
  rw [List.append_nil] at hz
  rw [toNat_append, hz, List.length_replicate]
  rfl

/-- Filling up changes no number. -/
theorem toNat_fill (w : ℕ) (ds : Bytes) : toNat (fill w ds) = toNat ds :=
  toNat_replicate_append _ ds

theorem isDigit_of_mem_fill {w : ℕ} {ds : Bytes} (h : ∀ b ∈ ds, isDigit b = true) {b : UInt8}
    (hb : b ∈ fill w ds) : isDigit b = true := by
  rcases List.mem_append.mp hb with hb | hb
  · rw [List.eq_of_mem_replicate hb]; rfl
  · exact h b hb

/-- A number that fits is filled up to the width. -/
theorem length_fill_ofNat {n w : ℕ} (hw : 0 < w) (h : n < 10 ^ w) :
    (fill w (ofNat n)).length = w :=
  length_fill (length_ofNat_le hw h)

/-- Numbers filled up to one width are ordered as numbers. -/
theorem fill_ofNat_lt_iff {m n w : ℕ} (hw : 0 < w) (hm : m < 10 ^ w) (hn : n < 10 ^ w) :
    fill w (ofNat m) < fill w (ofNat n) ↔ m < n := by
  rw [lt_iff_toNat_lt ((length_fill_ofNat hw hm).trans (length_fill_ofNat hw hn).symm)
    (fun b => isDigit_of_mem_fill fun c => isDigit_of_mem_ofNat)
    (fun b => isDigit_of_mem_fill fun c => isDigit_of_mem_ofNat), toNat_fill, toNat_fill,
    toNat_ofNat, toNat_ofNat]

/-- Different numbers are filled up differently. -/
theorem fill_ofNat_inj {m n w : ℕ} (h : fill w (ofNat m) = fill w (ofNat n)) : m = n := by
  rw [← toNat_ofNat m, ← toNat_ofNat n, ← toNat_fill w (ofNat m), h, toNat_fill]

end FleetControl.Decimal
