import FleetControl.Number.Double
import FleetControl.Proofs.Number.Decimal
import Mathlib.Algebra.Order.Field.Power
import Mathlib.Data.Rat.Cast.Order
import Mathlib.Tactic.FieldSimp
import Mathlib.Tactic.Linarith
import Mathlib.Tactic.Positivity
import Mathlib.Tactic.Ring

/-!
# The nearest double

A positive double of the size `m · 2^q` is the nearest to all numbers around it up to half of its
distance from the next one (`Near`), and every fraction there is read as it (`nearest?_eq`).
-/

namespace FleetControl.Double

variable {num den m k : ℕ} {q p : ℤ}

/-! ### Powers of two in a fraction -/

theorem scale_snd_pos (hden : 0 < den) (num : ℕ) (power : ℤ) : 0 < (scale num den power).2 := by
  rw [scale]
  split
  · exact Nat.mul_pos hden (Nat.pow_pos Nat.two_pos)
  · exact hden

theorem scale_eq (num den : ℕ) (power : ℤ) :
    ((scale num den power).1 : ℚ) / (scale num den power).2 = num / den / 2 ^ power := by
  rw [scale]
  split
  · rename_i h
    obtain ⟨k, rfl⟩ := Int.eq_ofNat_of_zero_le h
    simp only [Int.toNat_natCast, Nat.pow_eq, Nat.cast_mul, Nat.cast_pow, Nat.cast_ofNat,
      zpow_natCast, div_div]
  · rename_i h
    obtain ⟨k, hk⟩ := Int.eq_ofNat_of_zero_le (by omega : 0 ≤ -power)
    have hpower : power = -(k : ℤ) := by omega
    simp only [hpower, neg_neg, Int.toNat_natCast, Nat.pow_eq, Nat.cast_mul, Nat.cast_pow,
      Nat.cast_ofNat, zpow_neg, zpow_natCast, div_inv_eq_mul]
    ring

/-- The binary logarithm, rounded down. -/
theorem log2Div_spec (hnum : 0 < num) (hden : 0 < den) :
    (2 : ℚ) ^ log2Div num den ≤ num / den ∧ (num : ℚ) / den < 2 ^ (log2Div num den + 1) := by
  have hdenQ : (0 : ℚ) < den := Nat.cast_pos.mpr hden
  -- the whole logarithms give it up to one
  obtain ⟨e, he⟩ : ∃ e : ℤ, e = (num.log2 : ℤ) - (den.log2 : ℤ) := ⟨_, rfl⟩
  have hlow : (2 : ℚ) ^ (e - 1) ≤ num / den := by
    have hn : (2 : ℚ) ^ (num.log2 : ℤ) ≤ num := by
      exact_mod_cast Nat.log2_self_le hnum.ne'
    have hd : (den : ℚ) ≤ 2 ^ ((den.log2 : ℤ) + 1) := by
      exact_mod_cast (Nat.lt_log2_self (n := den)).le
    rw [le_div_iff₀ hdenQ]
    calc (2 : ℚ) ^ (e - 1) * den ≤ 2 ^ (e - 1) * 2 ^ ((den.log2 : ℤ) + 1) := by gcongr
      _ = 2 ^ (num.log2 : ℤ) := by rw [← zpow_add₀ two_ne_zero, he]; congr 1; ring
      _ ≤ num := hn
  have hhigh : (num : ℚ) / den < 2 ^ (e + 1) := by
    have hn : (num : ℚ) < 2 ^ ((num.log2 : ℤ) + 1) := by
      exact_mod_cast Nat.lt_log2_self (n := num)
    have hd : (2 : ℚ) ^ (den.log2 : ℤ) ≤ den := by
      exact_mod_cast Nat.log2_self_le hden.ne'
    rw [div_lt_iff₀ hdenQ]
    calc (num : ℚ) < 2 ^ ((num.log2 : ℤ) + 1) := hn
      _ = 2 ^ (e + 1) * 2 ^ (den.log2 : ℤ) := by rw [← zpow_add₀ two_ne_zero, he]; congr 1; ring
      _ ≤ 2 ^ (e + 1) * den := by gcongr
  have hscale := scale_eq num den e
  have hpos : (0 : ℚ) < (scale num den e).2 := Nat.cast_pos.mpr (scale_snd_pos hden num e)
  have hlog : log2Div num den =
      if (scale num den e).2 ≤ (scale num den e).1 then e else e - 1 := by
    rw [he]; rfl
  rw [hlog]
  have hiff : (scale num den e).2 ≤ (scale num den e).1 ↔ (2 : ℚ) ^ e ≤ num / den := by
    rw [← Nat.cast_le (α := ℚ), ← one_le_div hpos, hscale, one_le_div (by positivity)]
  split
  · rename_i h
    exact ⟨hiff.mp h, hhigh⟩
  · rename_i h
    refine ⟨hlow, ?_⟩
    rw [sub_add_cancel]
    exact lt_of_not_ge fun h' => h (hiff.mpr h')

/-! ### The nearest whole number -/

theorem roundDiv_cases (num den : ℕ) :
    roundDiv num den = num / den ∨ roundDiv num den = num / den + 1 := by
  simp only [roundDiv]
  split
  · exact .inl rfl
  · split
    · omega
    · exact .inr rfl

/-- A fraction is rounded to a whole number that is half of one away from it or less, exactly half
only if that number is even. -/
theorem roundDiv_eq (hlow : 2 * k * den ≤ 2 * num + den) (hhigh : 2 * num ≤ 2 * k * den + den)
    (hden : 0 < den)
    (htie : 2 * k * den = 2 * num + den ∨ 2 * num = 2 * k * den + den → k % 2 = 0) :
    roundDiv num den = k := by
  have hdiv := Nat.div_add_mod num den
  have hmod := Nat.mod_lt num hden
  obtain ⟨n, hn⟩ : ∃ n, n = num / den := ⟨_, rfl⟩
  obtain ⟨r, hr⟩ : ∃ r, r = num % den := ⟨_, rfl⟩
  rw [← hn, ← hr] at hdiv
  rw [← hr] at hmod
  -- half of one away or less leaves only the quotient and the number after it
  have hk : k = n ∨ k = n + 1 := by
    have hle : k ≤ n + 1 := by
      by_contra h
      have : den * (n + 2) ≤ den * k := Nat.mul_le_mul_left _ (by omega)
      nlinarith
    have hge : n ≤ k := by
      by_contra h
      have : den * (k + 1) ≤ den * n := Nat.mul_le_mul_left _ (by omega)
      nlinarith
    omega
  have hround : roundDiv num den =
      if 2 * r < den then n else if 2 * r = den then n + n % 2 else n + 1 := by
    rw [hn, hr]; rfl
  rw [hround]
  rcases hk with rfl | rfl
  · have hle : 2 * r ≤ den := by nlinarith
    split
    · rfl
    · have heq : 2 * r = den := by omega
      have heven := htie (.inr (by nlinarith))
      rw [if_pos heq, heven]
      rfl
  · have hle : den ≤ 2 * r := by nlinarith
    rw [if_neg (by omega)]
    split
    · rename_i heq
      have heven := htie (.inl (by nlinarith))
      omega
    · rfl

/-- The same over the fractions. -/
theorem roundDiv_eq_of_div (hden : 0 < den) (hlow : (k : ℚ) - 1 / 2 ≤ num / den)
    (hhigh : (num : ℚ) / den ≤ k + 1 / 2)
    (htie : (k : ℚ) - 1 / 2 = num / den ∨ (num : ℚ) / den = k + 1 / 2 → k % 2 = 0) :
    roundDiv num den = k := by
  have hdenQ : (0 : ℚ) < den := Nat.cast_pos.mpr hden
  rw [le_div_iff₀ hdenQ] at hlow
  rw [div_le_iff₀ hdenQ] at hhigh
  rw [eq_div_iff hdenQ.ne', div_eq_iff hdenQ.ne'] at htie
  refine roundDiv_eq ?_ ?_ hden fun h => htie ?_
  · rw [← Nat.cast_le (α := ℚ)]
    push_cast
    linarith
  · rw [← Nat.cast_le (α := ℚ)]
    push_cast
    linarith
  · rw [← Nat.cast_inj (R := ℚ), ← Nat.cast_inj (R := ℚ)] at h
    push_cast at h
    exact h.imp (fun h => by linarith) fun h => by linarith

/-! ### The sizes of doubles -/

/-- A whole number and a power of two that are the size of a double that is not zero: the whole
number fills its fifty-three bits unless the power is the least. -/
structure IsSize (m : ℕ) (q : ℤ) : Prop where
  pos : 0 < m
  lt : m < 2 ^ 53
  least_le : -1074 ≤ q
  le_largest : q ≤ 971
  fills : 2 ^ 52 ≤ m ∨ q = -1074

/-- Half of the distance from the next smaller double, in units of the power.  Below a power of two
that is half as far away. -/
def below (m : ℕ) (q : ℤ) : ℚ := if m = 2 ^ 52 ∧ -1074 < q then 1 / 4 else 1 / 2

/-- A number is as near to `m · 2^q` as to the next doubles, or nearer; as near only if `m` is even,
so that it wins. -/
structure Near (m : ℕ) (q : ℤ) (v : ℚ) : Prop where
  low : (m - below m q) * 2 ^ q ≤ v
  high : v ≤ (m + 1 / 2) * 2 ^ q
  tie : v = (m - below m q) * 2 ^ q ∨ v = (m + 1 / 2) * 2 ^ q → m % 2 = 0

theorem below_le (m : ℕ) (q : ℤ) : below m q ≤ 1 / 2 := by
  rw [below]
  split <;> norm_num

theorem Near.pos {v : ℚ} (h : Near m q v) (hs : IsSize m q) : 0 < v := by
  have hm : (1 : ℚ) ≤ m := by exact_mod_cast hs.pos
  have hbelow := below_le m q
  exact lt_of_lt_of_le (mul_pos (by linarith) (by positivity)) h.low

/-- The bits of the size, behind the sign. -/
def sizeBits (m : ℕ) (q : ℤ) : ℕ := (q + 1074).toNat * 2 ^ 52 + m

theorem IsSize.bits_lt (h : IsSize m q) : sizeBits m q < 2047 * 2 ^ 52 := by
  have hlt := h.lt
  have hle := h.le_largest
  have hq : (q + 1074).toNat ≤ 2045 := by omega
  rw [sizeBits]
  omega

theorem log2Div_eq {e : ℤ} (hnum : 0 < num) (hden : 0 < den)
    (hlow : (2 : ℚ) ^ e ≤ num / den) (hhigh : (num : ℚ) / den < 2 ^ (e + 1)) :
    log2Div num den = e := by
  obtain ⟨h₁, h₂⟩ := log2Div_spec hnum hden
  have hlt : log2Div num den < e + 1 :=
    (zpow_lt_zpow_iff_right₀ one_lt_two).mp (lt_of_le_of_lt h₁ hhigh)
  have hlt' : e < log2Div num den + 1 :=
    (zpow_lt_zpow_iff_right₀ one_lt_two).mp (lt_of_le_of_lt hlow h₂)
  omega

theorem nearest?_of_round {code : ℕ} (hpower : max (log2Div num den - 52) (-1074) = p)
    (hround : roundDiv (scale num den p).1 (scale num den p).2 = k)
    (hcode : (p + 1074).toNat * 2 ^ 52 + k = code) (hlt : code < 2047 * 2 ^ 52) :
    nearest? num den = some (UInt64.ofNat code) := by
  have h : nearest? num den =
      if (p + 1074).toNat * 2 ^ 52 + roundDiv (scale num den p).1 (scale num den p).2 <
        2047 * 2 ^ 52
      then some (UInt64.ofNat ((p + 1074).toNat * 2 ^ 52 +
        roundDiv (scale num den p).1 (scale num den p).2))
      else none := by
    rw [nearest?, hpower]
    rfl
  rw [h, hround, hcode, if_pos hlt]

theorem IsSize.cast_lt (h : IsSize m q) : (m : ℚ) + 1 ≤ 2 ^ 53 := by
  have hle : m + 1 ≤ 2 ^ 53 := h.lt
  exact_mod_cast hle

/-- A fraction in the range of the units of a double is rounded to it. -/
theorem nearest?_of_units (h : IsSize m q) (hden : 0 < den) (hv : Near m q (num / den))
    (hpower : max (log2Div num den - 52) (-1074) = q) :
    nearest? num den = some (UInt64.ofNat (sizeBits m q)) := by
  have hunit : (0 : ℚ) < 2 ^ q := by positivity
  have hbelow := below_le m q
  refine nearest?_of_round hpower (roundDiv_eq_of_div (scale_snd_pos hden num q) ?_ ?_ ?_) rfl
    h.bits_lt
  · rw [scale_eq, le_div_iff₀ hunit]
    exact le_trans (by gcongr) hv.low
  · rw [scale_eq, div_le_iff₀ hunit]
    exact hv.high
  · rw [scale_eq, eq_div_iff hunit.ne', div_eq_iff hunit.ne']
    rintro (htie | htie)
    · -- the end below is half a unit away
      have hlow := hv.low
      rw [← htie, mul_le_mul_iff_left₀ hunit] at hlow
      have hhalf : below m q = 1 / 2 := by linarith
      exact hv.tie (.inl (by rw [hhalf, htie]))
    · exact hv.tie (.inr htie)

/-- A fraction below a power of two that is nearest to that power is counted in smaller units. -/
theorem nearest?_of_below (h : IsSize m q) (hnum : 0 < num) (hden : 0 < den)
    (hv : Near m q (num / den)) (hq : -1074 < q) (hlt : (num : ℚ) / den < 2 ^ 52 * 2 ^ q) :
    nearest? num den = some (UInt64.ofNat (sizeBits m q)) := by
  have hunit : (0 : ℚ) < 2 ^ q := by positivity
  -- what is nearest to a fraction below the power, and not below it itself, is the power
  have hm : m = 2 ^ 52 := by
    have hfills : 2 ^ 52 ≤ m := h.fills.resolve_right hq.ne'
    have hclose : ((m : ℚ) - 1 / 2) * 2 ^ q < 2 ^ 52 * 2 ^ q := by
      have := below_le m q
      calc ((m : ℚ) - 1 / 2) * 2 ^ q ≤ (m - below m q) * 2 ^ q := by gcongr
        _ ≤ num / den := hv.low
        _ < 2 ^ 52 * 2 ^ q := hlt
    have hclose := lt_of_mul_lt_mul_right hclose hunit.le
    have hless : (m : ℚ) < 2 ^ 52 + 1 := by linarith
    have hless : m < 2 ^ 52 + 1 := by exact_mod_cast hless
    omega
  have hlow := hv.low
  rw [below, if_pos ⟨hm, hq⟩, hm] at hlow
  push_cast at hlow
  have hlog : log2Div num den = 51 + q := by
    refine log2Div_eq hnum hden ?_ ?_
    · rw [zpow_add₀ two_ne_zero]
      exact le_trans (by gcongr; norm_num) hlow
    · have he : 51 + q + 1 = 52 + q := by omega
      rw [he, zpow_add₀ two_ne_zero]
      exact hlt
  -- in units of half the size the power is counted as 2 ^ 53, which the rounding can still give
  have hhalf : (2 : ℚ) ^ q = 2 * 2 ^ (q - 1) := by
    rw [zpow_sub_one₀ two_ne_zero]
    ring
  have hsmaller : (0 : ℚ) < 2 ^ (q - 1) := by positivity
  rw [hhalf] at hlow hlt
  refine nearest?_of_round (p := q - 1) (by omega)
    (roundDiv_eq_of_div (k := 2 ^ 53) (scale_snd_pos hden num _) ?_ ?_ fun _ => by norm_num) ?_
    h.bits_lt
  · rw [scale_eq, le_div_iff₀ hsmaller]
    push_cast
    linarith
  · rw [scale_eq, div_le_iff₀ hsmaller]
    push_cast
    linarith
  · rw [sizeBits, hm]
    omega

/-- A fraction is read as the double that it is nearest to. -/
theorem nearest?_eq (h : IsSize m q) (hnum : 0 < num) (hden : 0 < den)
    (hv : Near m q (num / den)) : nearest? num den = some (UInt64.ofNat (sizeBits m q)) := by
  have hpow (n : ℕ) : (2 : ℚ) ^ ((n : ℤ) + q) = 2 ^ n * 2 ^ q := by
    rw [zpow_add₀ two_ne_zero, zpow_natCast]
  have hunit : (0 : ℚ) < 2 ^ q := by positivity
  have hupper : (num : ℚ) / den < 2 ^ ((53 : ℕ) + q) := by
    have := h.cast_lt
    rw [hpow]
    calc (num : ℚ) / den ≤ (m + 1 / 2) * 2 ^ q := hv.high
      _ < 2 ^ 53 * 2 ^ q := by gcongr; linarith
  have hlog : log2Div num den < (53 : ℕ) + q :=
    (zpow_lt_zpow_iff_right₀ one_lt_two).mp (lt_of_le_of_lt (log2Div_spec hnum hden).1 hupper)
  have hleast := h.least_le
  by_cases hbinade : (2 : ℚ) ^ 52 * 2 ^ q ≤ num / den
  · have hpower : log2Div num den = (52 : ℕ) + q := by
      refine log2Div_eq hnum hden (hpow 52 ▸ hbinade) (lt_of_lt_of_eq hupper ?_)
      congr 1
      omega
    exact nearest?_of_units h hden hv (by omega)
  · by_cases hq : q = -1074
    · have hlower : log2Div num den < (52 : ℕ) + q :=
        (zpow_lt_zpow_iff_right₀ one_lt_two).mp
          (lt_of_le_of_lt (log2Div_spec hnum hden).1 (hpow 52 ▸ not_le.mp hbinade))
      exact nearest?_of_units h hden hv (by omega)
    · exact nearest?_of_below h hnum hden hv (by omega) (not_le.mp hbinade)

/-! ### Decimals -/

theorem two_pow_lt_ten_pow : (2 : ℚ) ^ 1079 < 10 ^ 400 :=
  calc (2 : ℚ) ^ 1079 = (2 ^ 13) ^ 83 := by rw [← pow_mul]
    _ ≤ (10 ^ 4) ^ 83 := by gcongr; norm_num
    _ = 10 ^ 332 := by rw [← pow_mul]
    _ < 10 ^ 400 := by gcongr <;> norm_num

/-- No double is as large or as small as the limits of the magnitude. -/
theorem Near.between {v : ℚ} (h : Near m q v) (hs : IsSize m q) :
    (10 : ℚ) ^ (-400 : ℤ) < v ∧ v < 10 ^ (400 : ℤ) := by
  have hpos : (1 : ℚ) ≤ m := by exact_mod_cast hs.pos
  have hlt := hs.cast_lt
  have hbelow := below_le m q
  have hsmall : (2 : ℚ) ^ (-1074 : ℤ) ≤ 2 ^ q := zpow_le_zpow_right₀ one_le_two hs.least_le
  have hlarge : (2 : ℚ) ^ q ≤ 2 ^ (971 : ℤ) := zpow_le_zpow_right₀ one_le_two hs.le_largest
  constructor
  · calc (10 : ℚ) ^ (-400 : ℤ) = (10 ^ 400)⁻¹ := zpow_neg _ _
      _ < (2 ^ 1079)⁻¹ := inv_strictAnti₀ (by positivity) two_pow_lt_ten_pow
      _ = 2 ^ (-1079 : ℤ) := by rw [zpow_neg, zpow_ofNat]
      _ ≤ 2 ^ (-1075 : ℤ) := zpow_le_zpow_right₀ one_le_two (by decide)
      _ = 1 / 2 * 2 ^ (-1074 : ℤ) := by
        rw [one_div, ← zpow_neg_one, ← zpow_add₀ two_ne_zero]
        rfl
      _ ≤ (m - below m q) * 2 ^ q := mul_le_mul (by linarith) hsmall (by positivity) (by linarith)
      _ ≤ v := h.low
  · calc v ≤ (m + 1 / 2) * 2 ^ q := h.high
      _ ≤ 2 ^ (53 : ℤ) * 2 ^ (971 : ℤ) :=
        mul_le_mul (by norm_num; linarith) hlarge (by positivity) (by positivity)
      _ = 2 ^ (1024 : ℤ) := by
        rw [← zpow_add₀ two_ne_zero]
        rfl
      _ ≤ 2 ^ (1079 : ℤ) := zpow_le_zpow_right₀ one_le_two (by decide)
      _ < 10 ^ (400 : ℤ) := two_pow_lt_ten_pow

/-- The magnitude of digits that are nearest to a double is within the limits. -/
theorem Near.magnitude_le {ds : Bytes} {e : ℤ} (hv : Near m q (Decimal.toNat ds * 10 ^ e))
    (hs : IsSize m q) (hd : ∀ b ∈ ds, Decimal.isDigit b = true) (hne : ds ≠ [])
    (hz : ds.head? ≠ some 0x30) : -400 ≤ ds.length + e ∧ ds.length + e ≤ 400 := by
  obtain ⟨hsmall, hlarge⟩ := hv.between hs
  have hlength := List.length_pos_iff.mpr hne
  have hten : (1 : ℚ) < 10 := by norm_num
  have hunit : (0 : ℚ) < 10 ^ e := by positivity
  have hlow : (10 : ℚ) ^ (ds.length + e - 1) ≤ Decimal.toNat ds * 10 ^ e := by
    have hle : ((10 ^ (ds.length - 1) : ℕ) : ℚ) ≤ Decimal.toNat ds :=
      Nat.cast_le.mpr (Decimal.le_toNat hd hne hz)
    have he : (ds.length : ℤ) + e - 1 = ((ds.length - 1 : ℕ) : ℤ) + e := by omega
    rw [he, zpow_add₀ (by norm_num), zpow_natCast]
    push_cast at hle
    gcongr
  have hhigh : Decimal.toNat ds * 10 ^ e < (10 : ℚ) ^ (ds.length + e) := by
    have hlt : ((Decimal.toNat ds : ℕ) : ℚ) < ((10 ^ ds.length : ℕ) : ℚ) :=
      Nat.cast_lt.mpr (Decimal.toNat_lt hd)
    rw [zpow_add₀ (by norm_num), zpow_natCast]
    push_cast at hlt
    gcongr
  have hle : (ds.length : ℤ) + e - 1 < 400 :=
    (zpow_lt_zpow_iff_right₀ hten).mp (lt_of_le_of_lt hlow hlarge)
  have hge : -400 < (ds.length : ℤ) + e :=
    (zpow_lt_zpow_iff_right₀ hten).mp (lt_trans hsmall hhigh)
  omega

/-- A whole number and a power of ten are read as the double that they are nearest to. -/
theorem nearest?_decimal {n : ℕ} {e : ℤ} (hs : IsSize m q) (hn : 0 < n)
    (hv : Near m q (n * 10 ^ e)) : (if 0 ≤ e then nearest? (n * Nat.pow 10 e.toNat) 1
      else nearest? n (Nat.pow 10 (-e).toNat)) = some (UInt64.ofNat (sizeBits m q)) := by
  split
  · rename_i he
    obtain ⟨k, rfl⟩ := Int.eq_ofNat_of_zero_le he
    refine nearest?_eq hs (Nat.mul_pos hn (Nat.pow_pos (by decide))) Nat.one_pos ?_
    simpa using hv
  · rename_i he
    obtain ⟨k, hk⟩ := Int.eq_ofNat_of_zero_le (by omega : 0 ≤ -e)
    have he : e = -(k : ℤ) := by omega
    refine nearest?_eq hs hn (Nat.pow_pos (by decide)) ?_
    rw [he, zpow_neg, zpow_natCast] at hv
    simpa [he, div_eq_mul_inv] using hv

/-- Digits and an exponent are read as the double that their number is nearest to. -/
theorem ofDecimal?_eq {ds : Bytes} {e : ℤ} (negative : Bool) (hs : IsSize m q)
    (hd : ∀ b ∈ ds, Decimal.isDigit b = true) (hl : ds.length ≤ significant)
    (hv : Near m q (Decimal.toNat ds * 10 ^ e)) :
    ofDecimal? negative ds e = some ⟨signBit negative ||| UInt64.ofNat (sizeBits m q)⟩ := by
  obtain ⟨digits, hdigits⟩ : ∃ digits, digits = ds.dropWhile (· == (0x30 : UInt8)) := ⟨_, rfl⟩
  have hvalue : Decimal.toNat digits = Decimal.toNat ds := hdigits ▸ Decimal.toNat_dropWhile ds
  have hsub : digits.Sublist ds := hdigits ▸ List.dropWhile_sublist _
  rw [← hvalue] at hv
  have hn : 0 < Decimal.toNat digits := by
    refine Nat.pos_of_ne_zero fun h => ?_
    have hpos := hv.pos hs
    rw [h] at hpos
    simp at hpos
  have hne : digits ≠ [] := by
    rintro rfl
    cases hn
  have hhead : digits.head? ≠ some 0x30 := by
    intro hz
    have hzero := List.head?_dropWhile_not (· == (0x30 : UInt8)) ds
    rw [← hdigits, hz] at hzero
    cases hzero
  have hdigit : ∀ b ∈ digits, Decimal.isDigit b = true := fun b hb => hd b (hsub.subset hb)
  have hlength : digits.length ≤ significant := le_trans hsub.length_le hl
  obtain ⟨hsmall, hlarge⟩ := hv.magnitude_le hs hdigit hne hhead
  -- nothing is left out of the digits
  have hrest : digits.drop significant = [] := List.drop_eq_nil_iff.mpr hlength
  have htake : digits.take significant = digits := List.take_of_length_le hlength
  have hempty : digits.isEmpty = false := List.isEmpty_eq_false_iff.mpr hne
  have hexponent : Int.ofNat digits.length + e - Int.ofNat digits.length = e := by omega
  have hin : (false || decide (Int.ofNat digits.length + e < -400)) = false :=
    decide_eq_false (not_lt.mpr hsmall)
  have hany : ([] : Bytes).any (· != 0x30) = false := rfl
  simp only [ofDecimal?, ← hdigits, hempty, hrest, htake, hin, hany, Bool.false_eq_true, if_false,
    hexponent, nearest?_decimal hs hn hv, Option.map_some]
  exact if_neg (not_lt.mpr hlarge)

end FleetControl.Double
