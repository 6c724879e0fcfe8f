import FleetControl.Bytes
import Mathlib.Algebra.Group.Nat.Defs
import Mathlib.Tactic.Tauto

/-!
# Byte strings — more of their order, and words

The bytes of a word are its digits (`toNat_toWord`), so words and strings of four bytes stand for
each other: `ofWord_toWord`, `toWord_ofWord`.
-/

namespace FleetControl

namespace Bytes

/-- Behind beginnings of one length the ends decide only if the beginnings are equal. -/
theorem append_lt_append_iff {a b c d : Bytes} (hl : a.length = b.length) :
    a ++ c < b ++ d ↔ a < b ∨ a = b ∧ c < d := by
  induction a generalizing b with
  | nil => rw [List.eq_nil_of_length_eq_zero hl.symm]; simp
  | cons x xs ih =>
      cases b with
      | nil => cases hl
      | cons y ys =>
          simp only [List.cons_append, List.cons_lt_cons_iff, ih (Nat.succ.inj hl), List.cons.injEq]
          tauto

theorem lt_asymm {a b : Bytes} (h : a < b) : ¬ b < a := fun h' => lt_irrefl a (lt_trans h h')

theorem ne_of_lt {a b : Bytes} (h : a < b) : a ≠ b := fun e => lt_irrefl b (e ▸ h)

/-- What holds of the first 256 numbers holds of every byte. -/
theorem forall_byte {p : UInt8 → Prop} (h : ∀ n < 256, p (UInt8.ofNat n)) (b : UInt8) : p b :=
  UInt8.ofNat_toNat (x := b) ▸ h b.toNat b.toNat_lt

/-! ### Words -/

theorem toNat_shifted (a : UInt8) {k : UInt32} (hk : k.toNat ≤ 24) :
    (a.toUInt32 <<< k).toNat = 2 ^ k.toNat * a.toNat := by
  have hlt : 2 ^ k.toNat * a.toNat < 2 ^ 32 :=
    calc 2 ^ k.toNat * a.toNat < 2 ^ k.toNat * 2 ^ 8 :=
          Nat.mul_lt_mul_of_pos_left a.toNat_lt (Nat.two_pow_pos _)
      _ ≤ 2 ^ 24 * 2 ^ 8 := Nat.mul_le_mul_right _ (Nat.pow_le_pow_right Nat.two_pos hk)
  rw [UInt32.toNat_shiftLeft, UInt8.toNat_toUInt32, Nat.mod_eq_of_lt (by omega : k.toNat < 32),
    Nat.shiftLeft_eq, Nat.mul_comm, Nat.mod_eq_of_lt hlt]

/-- The bytes of a word are its digits. -/
theorem toNat_toWord (a b c d : UInt8) :
    (toWord a b c d).toNat = 2 ^ 24 * a.toNat + 2 ^ 16 * b.toNat + 2 ^ 8 * c.toNat + d.toNat := by
  have hb := b.toNat_lt
  have hc := c.toNat_lt
  have hd := d.toNat_lt
  -- below the lowest set bit of a number, to join bits is to add
  have or₁ : 2 ^ 24 * a.toNat ||| 2 ^ 16 * b.toNat = 2 ^ 16 * (2 ^ 8 * a.toNat + b.toNat) := by
    rw [← Nat.two_pow_add_eq_or_of_lt (by omega)]
    omega
  have or₂ : 2 ^ 16 * (2 ^ 8 * a.toNat + b.toNat) ||| 2 ^ 8 * c.toNat =
      2 ^ 8 * (2 ^ 16 * a.toNat + 2 ^ 8 * b.toNat + c.toNat) := by
    rw [← Nat.two_pow_add_eq_or_of_lt (by omega)]
    omega
  calc (toWord a b c d).toNat
      = (2 ^ 24 * a.toNat ||| 2 ^ 16 * b.toNat ||| 2 ^ 8 * c.toNat) ||| d.toNat := by
        rw [toWord, UInt32.toNat_or, UInt32.toNat_or, UInt32.toNat_or, UInt8.toNat_toUInt32,
          toNat_shifted a (by decide), toNat_shifted b (by decide), toNat_shifted c (by decide)]
        rfl
    _ = 2 ^ 8 * (2 ^ 16 * a.toNat + 2 ^ 8 * b.toNat + c.toNat) + d.toNat := by
        rw [or₁, or₂, ← Nat.two_pow_add_eq_or_of_lt hd]
    _ = 2 ^ 24 * a.toNat + 2 ^ 16 * b.toNat + 2 ^ 8 * c.toNat + d.toNat := by omega

theorem ofWord_toWord (a b c d : UInt8) : ofWord (toWord a b c d) = [a, b, c, d] := by
  have ha := a.toNat_lt
  have hb := b.toNat_lt
  have hc := c.toNat_lt
  have hd := d.toNat_lt
  simp only [ofWord, List.cons.injEq, and_true, ← UInt8.toNat_inj, UInt32.toNat_toUInt8,
    UInt32.toNat_shiftRight, toNat_toWord, Nat.shiftRight_eq_div_pow, UInt32.reduceToNat,
    Nat.reduceMod]
  omega

theorem toWord_ofWord (w : UInt32) :
    toWord (w >>> 24).toUInt8 (w >>> 16).toUInt8 (w >>> 8).toUInt8 w.toUInt8 = w := by
  have hw := w.toNat_lt
  simp only [← UInt32.toNat_inj, toNat_toWord, UInt32.toNat_toUInt8, UInt32.toNat_shiftRight,
    Nat.shiftRight_eq_div_pow, UInt32.reduceToNat, Nat.reduceMod]
  omega

end Bytes

end FleetControl
