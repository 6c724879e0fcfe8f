import FleetControl.Proofs.Number.Decimal
import FleetControl.Proofs.Number.Nearest
import Mathlib.Data.List.TakeWhile
import Mathlib.Data.Nat.Cast.Order.Field

/-!
# The shortest digits of a double

A finite double that is not zero has a size `m · 2^q` (`isSize_decompose`), and its bits are known
from this and the sign (`eq_of_sizeBits`).  Its interval holds just the numbers that are nearest to
it (`Interval.IsOf.holds_iff`).  The grid of seventeen digits is finer than the interval is wide, so
the search for the fewest digits ends with some (`search_interval`), and what is written of them,
without the zeros behind, is a number that is nearest to the double (`spelled_shortest`).
-/

namespace FleetControl.Double

variable {x : Double}

/-! ### Sign and size -/

theorem toNat_exponent (x : Double) :
    ((x.bits >>> 52) &&& 0x7ff).toNat = x.bits.toNat / 2 ^ 52 % 2 ^ 11 := by
  rw [UInt64.toNat_and, UInt64.toNat_shiftRight, Nat.shiftRight_eq_div_pow]
  exact Nat.and_two_pow_sub_one_eq_mod _ 11

theorem toNat_mantissa (x : Double) :
    (x.bits &&& 0xfffffffffffff).toNat = x.bits.toNat % 2 ^ 52 := by
  rw [UInt64.toNat_and]
  exact Nat.and_two_pow_sub_one_eq_mod _ 52

/-- All exponents but the largest are those of finite numbers. -/
theorem isFinite_iff : x.isFinite = true ↔ x.bits.toNat / 2 ^ 52 % 2 ^ 11 ≠ 2047 := by
  rw [isFinite, bne_iff_ne, ne_eq, ← UInt64.toNat_inj, toNat_exponent]
  rfl

/-- The sign is the highest bit. -/
theorem isNegative_iff : x.isNegative = true ↔ 2 ^ 63 ≤ x.bits.toNat := by
  have hlt := x.bits.toNat_lt
  rw [isNegative, beq_iff_eq, ← UInt64.toNat_inj, UInt64.toNat_shiftRight,
    Nat.shiftRight_eq_div_pow]
  simp only [UInt64.reduceToNat, Nat.reduceMod]
  omega

/-- A number is zero if it has no bit but the sign. -/
theorem size_eq_zero_iff : x.bits <<< 1 = 0 ↔ x.bits.toNat % 2 ^ 63 = 0 := by
  have hlt := x.bits.toNat_lt
  rw [← UInt64.toNat_inj, UInt64.toNat_shiftLeft]
  simp only [UInt64.reduceToNat, Nat.reduceMod, Nat.shiftLeft_eq]
  omega

/-- A double is a whole number times a power of two. -/
theorem decompose_eq (x : Double) : x.decompose =
    if x.bits.toNat / 2 ^ 52 % 2 ^ 11 = 0 then (x.bits.toNat % 2 ^ 52, -1074)
    else (x.bits.toNat % 2 ^ 52 + 2 ^ 52, ((x.bits.toNat / 2 ^ 52 % 2 ^ 11 : ℕ) : ℤ) - 1075) := by
  rw [← toNat_exponent, ← toNat_mantissa]
  rfl

/-- A finite double that is not zero has a size. -/
theorem isSize_decompose (hf : x.isFinite = true) (h₀ : x.bits <<< 1 ≠ 0) :
    IsSize x.decompose.1 x.decompose.2 := by
  have hlt := x.bits.toNat_lt
  rw [isFinite_iff] at hf
  rw [ne_eq, size_eq_zero_iff] at h₀
  rw [decompose_eq]
  split
  · exact ⟨by omega, by omega, by omega, by omega, .inr rfl⟩
  · exact ⟨by omega, by omega, by omega, by omega, .inl (Nat.le_add_left _ _)⟩

/-- Put together again the parts are the number without its sign. -/
theorem sizeBits_decompose (x : Double) :
    sizeBits x.decompose.1 x.decompose.2 = x.bits.toNat % 2 ^ 63 := by
  have hlt := x.bits.toNat_lt
  rw [sizeBits, decompose_eq]
  split <;> omega

/-- Sign and size are all of a double. -/
theorem eq_of_sizeBits (x : Double) :
    (⟨signBit x.isNegative ||| UInt64.ofNat (sizeBits x.decompose.1 x.decompose.2)⟩ : Double) =
      x := by
  have hlt := x.bits.toNat_lt
  have hsize : (UInt64.ofNat (x.bits.toNat % 2 ^ 63)).toNat = x.bits.toNat % 2 ^ 63 := by
    rw [UInt64.toNat_ofNat']
    omega
  rw [sizeBits_decompose]
  refine congrArg Double.mk (UInt64.toNat_inj.mp ?_)
  rw [UInt64.toNat_or, hsize]
  cases hs : x.isNegative with
  | false =>
      have hpos : ¬ 2 ^ 63 ≤ x.bits.toNat := by rw [← isNegative_iff, hs]; exact Bool.false_ne_true
      have hsign : (signBit false).toNat = 0 := rfl
      rw [hsign, Nat.zero_or]
      omega
  | true =>
      have hneg : 2 ^ 63 ≤ x.bits.toNat := isNegative_iff.mp hs
      have hsign : (signBit true).toNat = 2 ^ 63 * 1 := rfl
      rw [hsign, ← Nat.two_pow_add_eq_or_of_lt (Nat.mod_lt _ (Nat.two_pow_pos 63))]
      omega

/-! ### The numbers that read back -/

theorem Interval.holds_iff {i : Interval} (hden : 0 < i.den) (n : ℕ) (p : ℤ) :
    i.holds n p = true ↔
      if i.closed then (i.low : ℚ) / i.den ≤ n * 10 ^ p ∧ (n : ℚ) * 10 ^ p ≤ i.high / i.den
      else (i.low : ℚ) / i.den < n * 10 ^ p ∧ (n : ℚ) * 10 ^ p < i.high / i.den := by
  have hdenQ : (0 : ℚ) < i.den := Nat.cast_pos.mpr hden
  -- the number as a fraction, in units of the interval
  obtain ⟨num, den, hpos, hnum, hholds⟩ : ∃ num den : ℕ, 0 < den ∧
      (num : ℚ) = n * 10 ^ p * i.den * den ∧ i.holds n p =
        if i.closed then decide (i.low * den ≤ num) && decide (num ≤ i.high * den)
        else decide (i.low * den < num) && decide (num < i.high * den) := by
    by_cases hp : 0 ≤ p
    · refine ⟨n * Nat.pow 10 p.toNat * i.den, 1, Nat.one_pos, ?_, by rw [holds, if_pos hp]⟩
      obtain ⟨k, rfl⟩ := Int.eq_ofNat_of_zero_le hp
      simp
    · refine ⟨n * i.den, Nat.pow 10 (-p).toNat, Nat.pow_pos (by decide), ?_,
        by rw [holds, if_neg hp]⟩
      obtain ⟨k, hk⟩ := Int.eq_ofNat_of_zero_le (by omega : 0 ≤ -p)
      have hp : p = -(k : ℤ) := by omega
      simp only [hp, neg_neg, Int.toNat_natCast, Nat.pow_eq, Nat.cast_mul, Nat.cast_pow,
        Nat.cast_ofNat, zpow_neg, zpow_natCast]
      field_simp
  have hposQ : (0 : ℚ) < den := Nat.cast_pos.mpr hpos
  rw [hholds, div_le_iff₀ hdenQ, le_div_iff₀ hdenQ, div_lt_iff₀ hdenQ, lt_div_iff₀ hdenQ]
  have hle (a : ℕ) : a * den ≤ num ↔ (a : ℚ) ≤ n * 10 ^ p * i.den := by
    rw [← Nat.cast_le (α := ℚ), Nat.cast_mul, hnum, mul_le_mul_iff_left₀ hposQ]
  have hge (a : ℕ) : num ≤ a * den ↔ (n : ℚ) * 10 ^ p * i.den ≤ a := by
    rw [← Nat.cast_le (α := ℚ), Nat.cast_mul, hnum, mul_le_mul_iff_left₀ hposQ]
  split
  · rw [Bool.and_eq_true, decide_eq_true_eq, decide_eq_true_eq, hle, hge]
  · rw [Bool.and_eq_true, decide_eq_true_eq, decide_eq_true_eq, ← not_le, ← not_le, hle, hge,
      not_le, not_le]

/-- The interval of a double is what it is nearest to. -/
structure Interval.IsOf (i : Interval) (m : ℕ) (q : ℤ) : Prop where
  den_pos : 0 < i.den
  value : (i.value : ℚ) / i.den = m * 2 ^ q
  low : (i.low : ℚ) / i.den = (m - below m q) * 2 ^ q
  high : (i.high : ℚ) / i.den = (m + 1 / 2) * 2 ^ q
  closed : i.closed = decide (m % 2 = 0)

/-- The interval of a double is of the numbers that read as it. -/
theorem isOf_interval (h : IsSize x.decompose.1 x.decompose.2) :
    x.interval.IsOf x.decompose.1 x.decompose.2 := by
  obtain ⟨m, hm⟩ : ∃ m, m = x.decompose.1 := ⟨_, rfl⟩
  obtain ⟨q, hq⟩ : ∃ q, q = x.decompose.2 := ⟨_, rfl⟩
  obtain ⟨k, hk⟩ : ∃ k, k = (scale 1 1 (2 - q)).1 := ⟨_, rfl⟩
  obtain ⟨d, hd⟩ : ∃ d, d = (scale 1 1 (2 - q)).2 := ⟨_, rfl⟩
  have hinterval : x.interval = ⟨(if m = 2 ^ 52 ∧ -1074 < q then 4 * m - 1 else 4 * m - 2) * k,
      4 * m * k, (4 * m + 2) * k, d, decide (m % 2 = 0)⟩ := by
    rw [hk, hd, hm, hq]
    rfl
  have hpos : 0 < d := hd ▸ scale_snd_pos Nat.one_pos 1 _
  -- a quarter of the power is the unit of the interval
  have hunit : (k : ℚ) / d = 2 ^ q / 4 := by
    rw [hk, hd, scale_eq, zpow_sub₀ two_ne_zero]
    norm_num
  rw [← hm, ← hq] at h ⊢
  have hm₀ := h.pos
  have hvalue (a : ℕ) : ((a * k : ℕ) : ℚ) / d = a / 4 * 2 ^ q := by
    rw [Nat.cast_mul, mul_div_assoc, hunit]
    ring
  rw [hinterval]
  refine ⟨hpos, ?_, ?_, ?_, rfl⟩
  · rw [hvalue]
    push_cast
    ring
  · rw [hvalue, below]
    split
    · rw [Nat.cast_sub (by omega)]
      push_cast
      ring
    · rw [Nat.cast_sub (by omega)]
      push_cast
      ring
  · rw [hvalue]
    push_cast
    ring

/-- A number is held by the interval of a double if it is nearest to it. -/
theorem Interval.IsOf.holds_iff {i : Interval} {m : ℕ} {q : ℤ} (h : i.IsOf m q) (n : ℕ) (p : ℤ) :
    i.holds n p = true ↔ Near m q (n * 10 ^ p) := by
  rw [Interval.holds_iff h.den_pos, h.low, h.high, h.closed]
  by_cases heven : m % 2 = 0
  · rw [if_pos (decide_eq_true heven)]
    exact ⟨fun hv => ⟨hv.1, hv.2, fun _ => heven⟩, fun hv => ⟨hv.low, hv.high⟩⟩
  · rw [if_neg (by simpa using heven)]
    constructor
    · exact fun hv => ⟨hv.1.le, hv.2.le, fun ht => absurd ht (not_or.mpr ⟨hv.1.ne', hv.2.ne⟩)⟩
    · exact fun hv => ⟨lt_of_le_of_ne hv.low fun ht => heven (hv.tie (.inl ht.symm)),
        lt_of_le_of_ne hv.high fun ht => heven (hv.tie (.inr ht))⟩

/-! ### Digits in front of the point -/

theorem length_toDigits_spec {n : ℕ} (h : 0 < n) :
    ∃ l, (Nat.toDigits 10 n).length = l + 1 ∧ 10 ^ l ≤ n ∧ n < 10 ^ (l + 1) := by
  have hne := Decimal.ofNat_ne_nil n
  rw [Decimal.ofNat, ne_eq, List.map_eq_nil_iff] at hne
  obtain ⟨l, hl⟩ := Nat.exists_eq_succ_of_ne_zero (List.length_pos_iff.mpr hne).ne'
  have hle (w : ℕ) (hw : 0 < w) : l + 1 ≤ w ↔ n < 10 ^ w := by
    rw [← Nat.length_toDigits_le_iff (by decide) hw, hl]
  refine ⟨l, hl, ?_, (hle (l + 1) l.succ_pos).mp le_rfl⟩
  by_cases hl₀ : l = 0
  · rw [hl₀]
    exact h
  · exact not_lt.mp fun hlt => absurd ((hle l (Nat.pos_of_ne_zero hl₀)).mpr hlt) (by omega)

/-- The magnitude of an interval is that of its value, counted in digits. -/
theorem Interval.magnitude_spec {i : Interval} (hden : 0 < i.den) (hvalue : 0 < i.value) :
    (10 : ℚ) ^ (i.magnitude - 1) ≤ i.value / i.den ∧ (i.value : ℚ) / i.den < 10 ^ i.magnitude := by
  have hdenQ : (0 : ℚ) < i.den := Nat.cast_pos.mpr hden
  rw [le_div_iff₀ hdenQ, div_lt_iff₀ hdenQ]
  by_cases hwhole : i.value / i.den = 0
  · -- below one it is the digits of the inverse that are counted
    obtain ⟨inverse, hinverse⟩ : ∃ n, n = (i.den - 1) / i.value := ⟨_, rfl⟩
    have hlt : i.value < i.den := (Nat.div_eq_zero_iff_lt hden).mp hwhole
    have hpos : 0 < inverse := hinverse ▸ Nat.div_pos (by omega) hvalue
    obtain ⟨l, hlength, hlow, hhigh⟩ := length_toDigits_spec hpos
    have hmagnitude : i.magnitude = -(l : ℤ) := by
      have h : i.magnitude = 1 - Int.ofNat (Nat.toDigits 10 inverse).length := by
        rw [hinverse, magnitude]
        exact if_pos hwhole
      rw [h, hlength]
      simp
    have hbelow : i.value * 10 ^ l < i.den := by
      have hdiv := Nat.mul_div_le (i.den - 1) i.value
      have hle := Nat.mul_le_mul_left i.value hlow
      rw [← hinverse] at hdiv
      omega
    have habove : i.den ≤ i.value * 10 ^ (l + 1) := by
      have hdiv := Nat.lt_mul_div_succ (i.den - 1) hvalue
      have hle : i.value * (inverse + 1) ≤ i.value * 10 ^ (l + 1) := Nat.mul_le_mul_left _ hhigh
      rw [← hinverse] at hdiv
      omega
    have hbelowQ : (i.value : ℚ) * 10 ^ l < i.den := by exact_mod_cast hbelow
    have haboveQ : (i.den : ℚ) ≤ i.value * 10 ^ (l + 1) := by exact_mod_cast habove
    have hpred : -(l : ℤ) - 1 = -((l + 1 : ℕ) : ℤ) := by omega
    rw [hmagnitude, hpred, zpow_neg, zpow_neg, zpow_natCast, zpow_natCast,
      inv_mul_le_iff₀ (by positivity), lt_inv_mul_iff₀ (by positivity)]
    constructor <;> linarith
  · obtain ⟨l, hlength, hlow, hhigh⟩ := length_toDigits_spec (Nat.pos_of_ne_zero hwhole)
    have hmagnitude : i.magnitude = ((l + 1 : ℕ) : ℤ) := by
      have h : i.magnitude = Int.ofNat (Nat.toDigits 10 (i.value / i.den)).length := by
        rw [magnitude]
        exact if_neg hwhole
      rw [h, hlength]
      rfl
    have hbelow : 10 ^ l * i.den ≤ i.value := (Nat.le_div_iff_mul_le hden).mp hlow
    have habove : i.value < 10 ^ (l + 1) * i.den := (Nat.div_lt_iff_lt_mul hden).mp hhigh
    have hpred : ((l + 1 : ℕ) : ℤ) - 1 = (l : ℤ) := by omega
    rw [hmagnitude, hpred, zpow_natCast, zpow_natCast]
    exact ⟨by exact_mod_cast hbelow, by exact_mod_cast habove⟩

/-! ### The search -/

theorem Interval.inUnits_spec {i : Interval} (hden : 0 < i.den) (p : ℤ) :
    0 < (i.inUnits p).2 ∧
      ((i.inUnits p).1 : ℚ) / (i.inUnits p).2 = i.value / i.den / 10 ^ p := by
  rw [inUnits]
  split
  · rename_i hp
    obtain ⟨k, rfl⟩ := Int.eq_ofNat_of_zero_le hp
    refine ⟨Nat.mul_pos hden (Nat.pow_pos (by decide)), ?_⟩
    simp only [Int.toNat_natCast, Nat.pow_eq, Nat.cast_mul, Nat.cast_pow, Nat.cast_ofNat,
      zpow_natCast, div_div]
  · rename_i hp
    obtain ⟨k, hk⟩ := Int.eq_ofNat_of_zero_le (by omega : 0 ≤ -p)
    have hp : p = -(k : ℤ) := by omega
    refine ⟨hden, ?_⟩
    simp only [hp, neg_neg, Int.toNat_natCast, Nat.pow_eq, Nat.cast_mul, Nat.cast_pow,
      Nat.cast_ofNat, zpow_neg, zpow_natCast, div_inv_eq_mul]
    ring

/-- A hit is one of two neighbours on the grid and is held, and if there is none, neither is. -/
theorem Interval.hit?_cases {i : Interval} {p : ℤ} {num den : ℕ} (h : i.inUnits p = (num, den)) :
    (∀ n, i.hit? p = some n → (n = num / den ∨ n = num / den + 1) ∧ i.holds n p = true) ∧
      (i.hit? p = none → i.holds (num / den) p = false ∧ i.holds (num / den + 1) p = false) := by
  simp only [hit?, h]
  cases hfirst : i.holds (num / den) p <;> cases hsecond : i.holds (num / den + 1) p
  · exact ⟨fun n hn => (by cases hn), fun _ => ⟨rfl, rfl⟩⟩
  · refine ⟨?_, fun hn => by cases hn⟩
    rintro n ⟨⟩
    exact ⟨.inr rfl, hsecond⟩
  · refine ⟨?_, fun hn => by cases hn⟩
    rintro n ⟨⟩
    exact ⟨.inl rfl, hfirst⟩
  · refine ⟨?_, fun hn => by cases hn⟩
    rintro n ⟨⟩
    rcases roundDiv_cases num den with h | h <;> rw [h]
    · exact ⟨.inl rfl, hfirst⟩
    · exact ⟨.inr rfl, hsecond⟩

/-- The two numbers on a grid around the value of an interval. -/
theorem Interval.exists_lower {i : Interval} (hden : 0 < i.den) (p : ℤ) :
    ∃ lower : ℕ, (lower : ℚ) * 10 ^ p ≤ i.value / i.den ∧
      (i.value : ℚ) / i.den < (lower + 1) * 10 ^ p ∧
      (∀ n, i.hit? p = some n → (n = lower ∨ n = lower + 1) ∧ i.holds n p = true) ∧
      (i.hit? p = none → i.holds lower p = false ∧ i.holds (lower + 1) p = false) := by
  obtain ⟨hpos, hunits⟩ := inUnits_spec hden p
  obtain ⟨num, den, hpair⟩ : ∃ num den, i.inUnits p = (num, den) := ⟨_, _, rfl⟩
  obtain ⟨hsome, hnone⟩ := hit?_cases hpair
  rw [hpair] at hpos hunits
  have hposQ : (0 : ℚ) < den := Nat.cast_pos.mpr hpos
  have hunit : (0 : ℚ) < 10 ^ p := by positivity
  have hlower : ((num / den : ℕ) : ℚ) ≤ num / den := Nat.cast_div_le
  have hupper : (num : ℚ) / den < (num / den : ℕ) + 1 := by
    rw [div_lt_iff₀ hposQ]
    exact_mod_cast Nat.lt_mul_of_div_lt (Nat.lt_succ_self _) hpos
  rw [hunits] at hlower hupper
  exact ⟨num / den, (le_div_iff₀ hunit).mp hlower, (div_lt_iff₀ hunit).mp hupper, hsome, hnone⟩

/-- On a grid as fine as seventeen digits there is a number that is nearest to the double. -/
theorem Interval.IsOf.hit?_ne_none {i : Interval} {m : ℕ} {q p : ℤ} (h : i.IsOf m q)
    (hs : IsSize m q) (hp : 10 ^ 16 * 10 ^ p ≤ (m : ℚ) * 2 ^ q) : i.hit? p ≠ none := by
  intro hnone
  obtain ⟨lower, hle, hlt, -, hneither⟩ := exists_lower h.den_pos p
  obtain ⟨hlower, hupper⟩ := hneither hnone
  rw [h.value] at hle hlt
  have hunit : (0 : ℚ) < 2 ^ q := by positivity
  have hbelow : 0 < below m q := by
    rw [below]
    split <;> norm_num
  -- neither number is nearest to the double, so both ends lie between them
  have hlow : (lower : ℚ) * 10 ^ p ≤ (m - below m q) * 2 ^ q := by
    by_contra hlow
    have hhigh : (lower : ℚ) * 10 ^ p < (m + 1 / 2) * 2 ^ q := by nlinarith
    have hnear : Near m q (lower * 10 ^ p) :=
      ⟨(not_le.mp hlow).le, hhigh.le,
        fun ht => absurd ht (not_or.mpr ⟨(not_le.mp hlow).ne', hhigh.ne⟩)⟩
    rw [(h.holds_iff lower p).mpr hnear] at hlower
    cases hlower
  have hhigh : (m + 1 / 2) * 2 ^ q ≤ ((lower : ℚ) + 1) * 10 ^ p := by
    by_contra hhigh
    have hlow : (m - below m q) * 2 ^ q < ((lower + 1 : ℕ) : ℚ) * 10 ^ p := by
      push_cast
      nlinarith
    have hhigh : ((lower + 1 : ℕ) : ℚ) * 10 ^ p < (m + 1 / 2) * 2 ^ q := by
      push_cast
      exact not_le.mp hhigh
    have hnear : Near m q ((lower + 1 : ℕ) * 10 ^ p) :=
      ⟨hlow.le, hhigh.le, fun ht => absurd ht (not_or.mpr ⟨hlow.ne', hhigh.ne⟩)⟩
    rw [(h.holds_iff (lower + 1) p).mpr hnear] at hupper
    cases hupper
  have hwidth : (1 / 2 + below m q) * 2 ^ q ≤ 10 ^ p := by nlinarith
  have hwidth : (1 / 2 + below m q) * 10 ^ 16 * 2 ^ q ≤ m * 2 ^ q := by nlinarith
  have hwidth := le_of_mul_le_mul_right hwidth hunit
  have hm := hs.lt
  rw [below] at hwidth
  split at hwidth
  · rename_i hpower
    rw [hpower.1] at hwidth
    norm_num at hwidth
  · norm_num at hwidth
    omega

/-- What is found is a hit, at a place that was searched. -/
theorem Interval.search_spec {i : Interval} {magnitude : ℤ} {digits more n : ℕ} {p : ℤ}
    (h : i.search magnitude digits more = some (n, p)) :
    ∃ d < digits + more, p = magnitude - d ∧ i.hit? p = some n := by
  induction more generalizing digits with
  | zero => cases h
  | succ more ih =>
      simp only [search] at h
      split at h
      · rename_i n' hn
        cases h
        exact ⟨digits, by omega, rfl, hn⟩
      · obtain ⟨d, hd, hp, hn⟩ := ih h
        exact ⟨d, by omega, hp, hn⟩

/-- A hit within the places that are searched is not missed. -/
theorem Interval.search_ne_none {i : Interval} {magnitude : ℤ} {digits more d : ℕ}
    (hd : digits ≤ d) (hd' : d < digits + more) (h : i.hit? (magnitude - d) ≠ none) :
    i.search magnitude digits more ≠ none := by
  induction more generalizing digits with
  | zero => omega
  | succ more ih =>
      simp only [search]
      split
      · exact Option.some_ne_none _
      · rename_i hnone
        refine ih ?_ (by omega)
        by_contra hlt
        have he : d = digits := by omega
        exact h (he ▸ hnone)

/-- The search for the shortest digits succeeds, with a number of no more than seventeen digits or a
power of ten. -/
theorem search_interval (hf : x.isFinite = true) (h₀ : x.bits <<< 1 ≠ 0) :
    ∃ n p, x.interval.search x.interval.magnitude 1 17 = some (n, p) ∧ n ≤ 10 ^ 17 ∧
      Near x.decompose.1 x.decompose.2 (n * 10 ^ p) := by
  have hs := isSize_decompose hf h₀
  have hi := isOf_interval hs
  obtain ⟨m, hm⟩ : ∃ m, m = x.decompose.1 := ⟨_, rfl⟩
  obtain ⟨q, hq⟩ : ∃ q, q = x.decompose.2 := ⟨_, rfl⟩
  obtain ⟨i, hxi⟩ : ∃ i, i = x.interval := ⟨_, rfl⟩
  rw [← hm, ← hq] at hs hi ⊢
  rw [← hxi] at hi ⊢
  have hvalue : 0 < i.value := by
    have hpos : (0 : ℚ) < m * 2 ^ q := mul_pos (Nat.cast_pos.mpr hs.pos) (by positivity)
    rw [← hi.value] at hpos
    exact Nat.pos_of_ne_zero fun h => by simp [h] at hpos
  obtain ⟨hlow, hhigh⟩ := Interval.magnitude_spec hi.den_pos hvalue
  have hfine : 10 ^ 16 * 10 ^ (i.magnitude - (17 : ℕ)) ≤ (m : ℚ) * 2 ^ q := by
    have hpow : (10 : ℚ) ^ 16 * 10 ^ (i.magnitude - (17 : ℕ)) = 10 ^ (i.magnitude - 1) := by
      rw [← zpow_natCast, ← zpow_add₀ (by norm_num)]
      congr 1
      omega
    rw [hpow, ← hi.value]
    exact hlow
  have hfound : i.search i.magnitude 1 17 ≠ none :=
    Interval.search_ne_none (by decide) (by decide) (hi.hit?_ne_none hs hfine)
  obtain ⟨⟨n, p⟩, hn⟩ := Option.ne_none_iff_exists'.mp hfound
  obtain ⟨d, hd, hp, hhit⟩ := Interval.search_spec hn
  obtain ⟨lower, hle, -, hsome, -⟩ := Interval.exists_lower hi.den_pos p
  obtain ⟨hcases, hholds⟩ := hsome n hhit
  refine ⟨n, p, hn, ?_, (hi.holds_iff n p).mp hholds⟩
  -- below ten to the magnitude there are as many numbers as digits allow
  have hlower : lower < 10 ^ d := by
    have hlt : (lower : ℚ) * 10 ^ p < 10 ^ d * 10 ^ p := by
      rw [← zpow_natCast, ← zpow_add₀ (by norm_num), hp, add_sub_cancel]
      exact lt_of_le_of_lt (hp ▸ hle) hhigh
    exact_mod_cast lt_of_mul_lt_mul_right hlt (by positivity)
  have hpow : 10 ^ d ≤ 10 ^ 17 := Nat.pow_le_pow_right (by decide) (by omega)
  omega

/-! ### Digits that are nearest to a double -/

/-- Digits without zeros in front, and the place of the point, of a number that is nearest to a
double of this size. -/
structure Spelled (digits : Bytes) (point : ℤ) (m : ℕ) (q : ℤ) : Prop where
  isDigit : ∀ b ∈ digits, Decimal.isDigit b = true
  ne_nil : digits ≠ []
  head : digits.head? ≠ some 0x30
  length_le : digits.length ≤ 18
  near : Near m q (Decimal.toNat digits * 10 ^ (point - digits.length))

/-- The digits that are written are those of the number found, without the zeros at its end. -/
theorem shortest_eq {n : ℕ} {p : ℤ}
    (h : x.interval.search x.interval.magnitude 1 17 = some (n, p)) : x.shortest =
      (((Decimal.ofNat n).reverse.dropWhile (· == 0x30)).reverse,
        ((Decimal.ofNat n).length : ℤ) + p) := by
  simp only [shortest, h]
  rfl

/-- What is left out behind digits are zeros. -/
theorem exists_zeros (ds : Bytes) :
    ∃ k, ds = (ds.reverse.dropWhile (· == 0x30)).reverse ++ List.replicate k 0x30 := by
  obtain ⟨zeros, hzeros⟩ : ∃ zs, zs = ds.reverse.takeWhile (· == (0x30 : UInt8)) := ⟨_, rfl⟩
  have hall : zeros.reverse = List.replicate zeros.length 0x30 := by
    refine List.eq_replicate_iff.mpr ⟨List.length_reverse, fun b hb => ?_⟩
    rw [List.mem_reverse, hzeros] at hb
    have hzero := List.mem_takeWhile_imp hb
    exact beq_iff_eq.mp hzero
  refine ⟨zeros.length, ?_⟩
  rw [← hall, ← List.reverse_append, hzeros, List.takeWhile_append_dropWhile, List.reverse_reverse]

/-- The shortest digits of a double are nearest to it. -/
theorem spelled_shortest (hf : x.isFinite = true) (h₀ : x.bits <<< 1 ≠ 0) :
    Spelled x.shortest.1 x.shortest.2 x.decompose.1 x.decompose.2 := by
  obtain ⟨n, p, hn, hle, hnear⟩ := search_interval hf h₀
  obtain ⟨digits, hdigits⟩ :
      ∃ ds, ds = ((Decimal.ofNat n).reverse.dropWhile (· == 0x30)).reverse := ⟨_, rfl⟩
  -- the zeros at the end of the digits go into the exponent
  obtain ⟨k, hk⟩ := exists_zeros (Decimal.ofNat n)
  rw [← hdigits] at hk
  have hvalue : n = Decimal.toNat digits * 10 ^ k := by
    rw [← Decimal.toNat_ofNat n, hk, Decimal.toNat_append_replicate]
  have hn₀ : n ≠ 0 := by
    have hpos := hnear.pos (isSize_decompose hf h₀)
    rintro rfl
    simp at hpos
  have hne : digits ≠ [] := by
    rintro rfl
    exact hn₀ (hvalue.trans (Nat.zero_mul _))
  have hlength : (Decimal.ofNat n).length = digits.length + k := by
    rw [hk, List.length_append, List.length_replicate]
  have hshort : (Decimal.ofNat n).length ≤ 18 :=
    Decimal.length_ofNat_le (by decide) (Nat.lt_of_le_of_lt hle (by decide))
  rw [shortest_eq hn, ← hdigits]
  refine ⟨fun b hb => ?_, hne, ?_, by simp only; omega, ?_⟩
  · have hmem : b ∈ Decimal.ofNat n := by
      rw [hk]
      exact List.mem_append_left _ hb
    exact Decimal.isDigit_of_mem_ofNat hmem
  · have hhead := Decimal.head?_ofNat_ne_zero hn₀
    rwa [hk, List.head?_append_of_ne_nil _ hne] at hhead
  · have hpoint : ((Decimal.ofNat n).length : ℤ) + p - digits.length = k + p := by omega
    have hten : (10 : ℚ) ≠ 0 := by norm_num
    rw [hvalue] at hnear
    push_cast at hnear
    rw [hpoint, zpow_add₀ hten, zpow_natCast, ← mul_assoc]
    exact hnear

end FleetControl.Double
