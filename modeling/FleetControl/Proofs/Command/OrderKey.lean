import FleetControl.Command.Journal
import FleetControl.Proofs.Bytes
import FleetControl.Proofs.Number.Decimal

/-!
# Order keys — time of creation first, then id

The time takes the first twenty bytes of an order key whatever it is, so a key determines its time
and id (`orderKey_inj`).  From the epoch on keys are ordered by time and then by id
(`orderKey_lt_iff`): a command that is created later comes later.  All keys before the epoch are in
front of those from it on (`orderKey_lt_of_createdAt_lt`), but among themselves they go backwards in
time (`orderKey_lt_iff_of_neg`).  So two keys are in the order of their commands unless both commands
are created before the epoch, at different times (`keys_in_order_iff`).
-/

namespace FleetControl

namespace Command

/-- The part of an order key that stands for the time. -/
def stamp (t : Instant) : Bytes := Decimal.ofIntFilled 20 t.toInt

theorem orderKey_eq (c : Command) : c.orderKey = stamp c.createdAt ++ 0x2f :: c.id := rfl

theorem stamp_of_nonneg {t : Instant} (h : 0 ≤ t) :
    stamp t = Decimal.fill 20 (Decimal.ofNat t.toInt.toNat) ∧ t.toInt.toNat < 10 ^ 20 := by
  have h₀ : 0 ≤ t.toInt := by simpa using Int64.le_iff_toInt_le.mp h
  have h₁ := t.toInt_lt
  refine ⟨?_, by omega⟩
  rw [stamp]
  cases e : t.toInt with
  | ofNat n => rfl
  | negSucc n => omega

theorem length_stamp (t : Instant) : (stamp t).length = 20 := by
  have h₀ := t.le_toInt
  have h₁ := t.toInt_lt
  rw [stamp]
  cases e : t.toInt with
  | ofNat n =>
      have : n < 10 ^ 20 := by rw [e] at h₁; simp only [Int.ofNat_eq_natCast] at h₁; omega
      exact Decimal.length_fill_ofNat (by decide) this
  | negSucc n =>
      have : n + 1 < 10 ^ 19 := by omega
      simp [Decimal.ofIntFilled, Decimal.length_fill_ofNat (w := 19) (by decide) this]

/-- Whatever the sign, a time is determined by its stamp: a minus sign is no digit. -/
theorem stamp_inj {s t : Instant} (h : stamp s = stamp t) : s = t := by
  have sign : ∀ m n : ℕ,
      Decimal.ofIntFilled 20 (.ofNat m) ≠ Decimal.ofIntFilled 20 (.negSucc n) := by
    intro m n e
    have hm : (0x2d : UInt8) ∈ Decimal.ofIntFilled 20 (.ofNat m) := e ▸ List.mem_cons_self
    have hdigit := Decimal.isDigit_of_mem_fill (fun _ => Decimal.isDigit_of_mem_ofNat) hm
    exact absurd hdigit (by decide)
  rw [← Int64.toInt_inj]
  rw [stamp, stamp] at h
  cases hs : s.toInt with
  | ofNat m =>
      cases ht : t.toInt with
      | ofNat n =>
          rw [hs, ht] at h
          rw [Decimal.fill_ofNat_inj h]
      | negSucc n => rw [hs, ht] at h; exact absurd h (sign m n)
  | negSucc m =>
      cases ht : t.toInt with
      | ofNat n => rw [hs, ht] at h; exact absurd h.symm (sign n m)
      | negSucc n =>
          rw [hs, ht] at h
          have := Decimal.fill_ofNat_inj (List.cons.inj h).2
          rw [Nat.succ.inj this]

/-- Commands with one order key have one time and one id. -/
theorem orderKey_inj {a b : Command} :
    a.orderKey = b.orderKey ↔ a.createdAt = b.createdAt ∧ a.id = b.id := by
  rw [orderKey_eq, orderKey_eq]
  constructor
  · intro h
    obtain ⟨h₁, h₂⟩ := List.append_inj h (by rw [length_stamp, length_stamp])
    exact ⟨stamp_inj h₁, (List.cons.inj h₂).2⟩
  · rintro ⟨h₁, h₂⟩
    rw [h₁, h₂]

theorem stamp_lt_iff {s t : Instant} (hs : 0 ≤ s) (ht : 0 ≤ t) : stamp s < stamp t ↔ s < t := by
  obtain ⟨es, bs⟩ := stamp_of_nonneg hs
  obtain ⟨et, bt⟩ := stamp_of_nonneg ht
  have hs₀ : 0 ≤ s.toInt := by simpa using Int64.le_iff_toInt_le.mp hs
  have ht₀ : 0 ≤ t.toInt := by simpa using Int64.le_iff_toInt_le.mp ht
  rw [es, et, Decimal.fill_ofNat_lt_iff (by decide) bs bt, Int64.lt_iff_toInt_lt]
  omega

theorem stamp_of_neg {t : Instant} (h : t < 0) :
    stamp t = 0x2d :: Decimal.fill 19 (Decimal.ofNat t.toInt.natAbs) ∧
      t.toInt.natAbs < 10 ^ 19 := by
  have h₀ : t.toInt < 0 := by simpa using Int64.lt_iff_toInt_lt.mp h
  have h₁ := t.le_toInt
  refine ⟨?_, by omega⟩
  obtain ⟨n, hn⟩ : ∃ n, t.toInt = .negSucc n := Int.eq_negSucc_of_lt_zero h₀
  rw [stamp, hn]
  rfl

/-- The stamp of a time before the epoch begins with a minus sign, which is in front of every digit,
so a time from the epoch on comes later than any before it. -/
theorem stamp_lt_stamp {s t : Instant} (ht : 0 ≤ t) (h : s < t) : stamp s < stamp t := by
  by_cases hs : 0 ≤ s
  · exact (stamp_lt_iff hs ht).mpr h
  · have hminus := (stamp_of_neg (Int64.not_le.mp hs)).1
    cases ht' : stamp t with
    | nil => rw [← List.length_eq_zero_iff, length_stamp] at ht'; cases ht'
    | cons d ds =>
        have hd : d ∈ stamp t := ht' ▸ List.mem_cons_self
        rw [(stamp_of_nonneg ht).1] at hd
        have hdigit := Decimal.isDigit_iff.mp
          (Decimal.isDigit_of_mem_fill (fun _ => Decimal.isDigit_of_mem_ofNat) hd)
        rw [hminus, List.cons_lt_cons_iff, UInt8.lt_iff_toNat_lt]
        exact .inl (by simp only [UInt8.reduceToNat]; omega)

/-- Behind the minus sign stands the distance from the epoch, which grows backwards in time. -/
theorem stamp_lt_iff_of_neg {s t : Instant} (hs : s < 0) (ht : t < 0) :
    stamp s < stamp t ↔ t < s := by
  obtain ⟨es, bs⟩ := stamp_of_neg hs
  obtain ⟨et, bt⟩ := stamp_of_neg ht
  have hs₀ : s.toInt < 0 := by simpa using Int64.lt_iff_toInt_lt.mp hs
  have ht₀ : t.toInt < 0 := by simpa using Int64.lt_iff_toInt_lt.mp ht
  rw [es, et, List.cons_lt_cons_iff, Decimal.fill_ofNat_lt_iff (by decide) bs bt,
    Int64.lt_iff_toInt_lt]
  have hminus : ¬ (0x2d : UInt8) < 0x2d := UInt8.lt_irrefl _
  simp only [hminus, true_and, false_or]
  omega

/-- Two stamps are in the order of their times unless both times are before the epoch. -/
theorem stamp_lt_iff_lt {s t : Instant} (h : 0 ≤ s ∨ 0 ≤ t ∨ s = t) :
    stamp s < stamp t ↔ s < t := by
  rw [Int64.le_iff_toInt_le, Int64.le_iff_toInt_le, ← Int64.toInt_inj] at h
  rcases Int.lt_trichotomy s.toInt t.toInt with hst | hst | hst
  · have ht : 0 ≤ t := Int64.le_iff_toInt_le.mpr (by omega)
    have hst := Int64.lt_iff_toInt_lt.mpr hst
    exact iff_of_true (stamp_lt_stamp ht hst) hst
  · rw [Int64.toInt_inj.mp hst]
    exact iff_of_false (List.lt_irrefl _) Int64.lt_irrefl
  · have hs : 0 ≤ s := Int64.le_iff_toInt_le.mpr (by omega)
    have hst := Int64.lt_iff_toInt_lt.mpr hst
    exact iff_of_false (Bytes.lt_asymm (stamp_lt_stamp hs hst)) (Int64.lt_asymm hst)

/-- Keys are ordered by their stamps, and those of one time by the ids. -/
theorem orderKey_lt_iff_stamp {a b : Command} : a.orderKey < b.orderKey ↔
    stamp a.createdAt < stamp b.createdAt ∨ a.createdAt = b.createdAt ∧ a.id < b.id := by
  rw [orderKey_eq, orderKey_eq,
    Bytes.append_lt_append_iff (by rw [length_stamp, length_stamp]), List.cons_lt_cons_iff]
  constructor
  · rintro (h | ⟨h, h' | ⟨-, h'⟩⟩)
    · exact .inl h
    · exact absurd h' (UInt8.lt_irrefl _)
    · exact .inr ⟨stamp_inj h, h'⟩
  · rintro (h | ⟨h, h'⟩)
    · exact .inl h
    · exact .inr ⟨congrArg stamp h, .inr ⟨rfl, h'⟩⟩

/-- From the epoch on order keys are ordered by time of creation, then by id. -/
theorem orderKey_lt_iff {a b : Command} (ha : 0 ≤ a.createdAt) (hb : 0 ≤ b.createdAt) :
    a.orderKey < b.orderKey ↔
      a.createdAt < b.createdAt ∨ a.createdAt = b.createdAt ∧ a.id < b.id := by
  rw [orderKey_lt_iff_stamp, stamp_lt_iff ha hb]

/-- Before the epoch order keys go backwards in time. -/
theorem orderKey_lt_iff_of_neg {a b : Command} (ha : a.createdAt < 0) (hb : b.createdAt < 0) :
    a.orderKey < b.orderKey ↔
      b.createdAt < a.createdAt ∨ a.createdAt = b.createdAt ∧ a.id < b.id := by
  rw [orderKey_lt_iff_stamp, stamp_lt_iff_of_neg ha hb]

/-- A command that is created from the epoch on comes after all that were created before it, also
before the epoch. -/
theorem orderKey_lt_of_createdAt_lt {a b : Command} (hb : 0 ≤ b.createdAt)
    (h : a.createdAt < b.createdAt) : a.orderKey < b.orderKey :=
  orderKey_lt_iff_stamp.mpr (.inl (stamp_lt_stamp hb h))

/-! ### Keys and commands -/

/-- The order of commands: by time of creation, then by id. -/
def Before (a b : Command) : Prop :=
  a.createdAt < b.createdAt ∨ a.createdAt = b.createdAt ∧ a.id < b.id

/-- Keys stand for times and ids, and two keys are in the order of their commands exactly if one of
the commands is created from the epoch on or both are at once.  Two commands of different times
before the epoch have their keys the other way round. -/
theorem keys_in_order_iff (a b : Command) :
    (a.orderKey = b.orderKey ↔ a.createdAt = b.createdAt ∧ a.id = b.id) ∧
      ((a.orderKey < b.orderKey ↔ a.Before b) ↔
        0 ≤ a.createdAt ∨ 0 ≤ b.createdAt ∨ a.createdAt = b.createdAt) ∧
      (a.createdAt < 0 → b.createdAt < 0 → a.createdAt ≠ b.createdAt →
        (a.orderKey < b.orderKey ↔ b.Before a)) := by
  have hreversed (ha : a.createdAt < 0) (hb : b.createdAt < 0) (hne : a.createdAt ≠ b.createdAt) :
      (a.orderKey < b.orderKey ↔ b.createdAt < a.createdAt) := by
    rw [orderKey_lt_iff_of_neg ha hb, or_iff_left fun h => hne h.1]
  refine ⟨orderKey_inj, ⟨fun h => ?_, fun h => ?_⟩, fun ha hb hne => ?_⟩
  · by_contra hneither
    obtain ⟨ha, hb, hne⟩ := (not_or.mp hneither).imp_right not_or.mp
    rw [hreversed (Int64.not_le.mp ha) (Int64.not_le.mp hb) hne, Before,
      or_iff_left fun h => hne h.1, Int64.lt_iff_toInt_lt, Int64.lt_iff_toInt_lt] at h
    exact hne (Int64.toInt_inj.mp (by omega))
  · rw [orderKey_lt_iff_stamp, stamp_lt_iff_lt h, Before]
  · rw [hreversed ha hb hne, Before, or_iff_left fun h => hne h.1.symm]

/-- Two lines of a journal of which the earlier command has the later key. -/
theorem earlier_command_has_later_key :
    let line (id : String) (time : String) := utf8 ("\x7b\"createdAtUnixNano\":" ++ time ++
      ",\"id\":\"" ++ id ++ "\",\"kind\":\"Restart\",\"targetInstanceId\":\"i\"\x7d")
    ∃ a b : Command, Journal.readLine (line "a" "-2") 1 = .ok (some a) ∧
      Journal.readLine (line "b" "-1") 2 = .ok (some b) ∧ a.Before b ∧ ¬ a.orderKey < b.orderKey := by
  let sample (id : Bytes) (createdAt : Instant) : Command :=
    ⟨id, .restart, utf8 "i", .obj [], createdAt⟩
  exact ⟨sample (utf8 "a") (-2), sample (utf8 "b") (-1), rfl, rfl, .inl (by decide), by decide⟩

theorem orderKey_ne_nil (c : Command) : c.orderKey ≠ [] := by
  intro h
  have := congrArg List.length h
  simp [orderKey_eq] at this

theorem nil_lt_orderKey (c : Command) : [] < c.orderKey := by
  cases h : c.orderKey with
  | nil => exact absurd h c.orderKey_ne_nil
  | cons x xs => exact List.nil_lt_cons x xs

end Command

end FleetControl
