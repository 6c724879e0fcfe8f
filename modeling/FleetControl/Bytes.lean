/-!
# Byte strings

Ids, names, keys and frames arrive from peers that need not send well-formed text, so every such
value is a list of bytes.  They are ordered byte by byte, as unsigned numbers; `order` is that
order as one tail-recursive comparison, and `order_eq_lt_iff`, `order_eq_eq_iff` say which order
it is.
-/

namespace FleetControl

/-- A string of bytes, not necessarily text. -/
abbrev Bytes := List UInt8

/-- The UTF-8 form of a text constant. -/
def utf8 (s : String) : Bytes := s.toList.flatMap String.utf8EncodeChar

namespace Bytes

/-- Three-way comparison in the byte order: the first difference decides, and a proper beginning
comes before what it begins. -/
def order : Bytes → Bytes → Ordering
  | [], [] => .eq
  | [], _ :: _ => .lt
  | _ :: _, [] => .gt
  | a :: as, b :: bs => if a < b then .lt else if b < a then .gt else order as bs

theorem order_self (a : Bytes) : order a a = .eq := by
  induction a with
  | nil => rfl
  | cons x xs ih => simp [order, ih]

theorem order_eq_eq_iff {a b : Bytes} : order a b = .eq ↔ a = b := by
  induction a generalizing b with
  | nil => cases b <;> simp [order]
  | cons x xs ih =>
    cases b with
    | nil => simp [order]
    | cons y ys =>
      simp only [order, List.cons.injEq]
      split
      · rename_i h; simp only [reduceCtorEq, false_iff, not_and]; rintro rfl
        exact absurd h (UInt8.lt_irrefl x)
      · split
        · rename_i h; simp only [reduceCtorEq, false_iff, not_and]; rintro rfl
          exact absurd h (UInt8.lt_irrefl x)
        · rename_i h₁ h₂
          have : x = y := UInt8.le_antisymm (UInt8.not_lt.mp h₂) (UInt8.not_lt.mp h₁)
          simp [ih, this]

theorem order_eq_lt_iff {a b : Bytes} : order a b = .lt ↔ a < b := by
  induction a generalizing b with
  | nil => cases b <;> simp [order]
  | cons x xs ih =>
    cases b with
    | nil => simp [order]
    | cons y ys =>
      simp only [order, List.cons_lt_cons_iff]
      split
      · rename_i h; simp [h]
      · split
        · rename_i h₁ h₂
          simp only [reduceCtorEq, false_iff, not_or, not_and]
          exact ⟨h₁, fun e => absurd (e ▸ h₂) (UInt8.lt_irrefl _)⟩
        · rename_i h₁ h₂
          have : x = y := UInt8.le_antisymm (UInt8.not_lt.mp h₂) (UInt8.not_lt.mp h₁)
          simp [ih, this]

theorem lt_irrefl (a : Bytes) : ¬ a < a := by
  simp [← order_eq_lt_iff, order_self]

theorem order_eq_gt_iff {a b : Bytes} : order a b = .gt ↔ b < a := by
  induction a generalizing b with
  | nil => cases b <;> simp [order]
  | cons x xs ih =>
    cases b with
    | nil => simp [order]
    | cons y ys =>
      simp only [order, List.cons_lt_cons_iff]
      split
      · rename_i h
        simp only [reduceCtorEq, false_iff, not_or, not_and]
        exact ⟨UInt8.not_lt.mpr (UInt8.le_of_lt h), fun e => absurd (e ▸ h) (UInt8.lt_irrefl _)⟩
      · split
        · rename_i h; simp [h]
        · rename_i h₁ h₂
          have : x = y := UInt8.le_antisymm (UInt8.not_lt.mp h₂) (UInt8.not_lt.mp h₁)
          simp [ih, this]

theorem lt_trans {a b c : Bytes} (h₁ : a < b) (h₂ : b < c) : a < c := List.lt_trans h₁ h₂

theorem lt_trichotomy (a b : Bytes) : a < b ∨ a = b ∨ b < a := by
  cases h : order a b with
  | lt => exact .inl (order_eq_lt_iff.mp h)
  | eq => exact .inr (.inl (order_eq_eq_iff.mp h))
  | gt => exact .inr (.inr (order_eq_gt_iff.mp h))

/-- Whether `a` comes strictly before `b`. -/
def before (a b : Bytes) : Bool := order a b == .lt

@[simp] theorem before_iff {a b : Bytes} : before a b = true ↔ a < b := by
  rw [← order_eq_lt_iff, before]
  cases order a b <;> decide

/-- Whether two strings are equal, found by looking at every byte whatever comes first. -/
def constantTimeEq (a b : Bytes) : Bool :=
  a.length == b.length && (a.zip b).foldl (fun diff (x, y) => diff ||| (x ^^^ y)) (0 : UInt8) == 0

theorem foldl_or_eq_zero_iff (pairs : List (UInt8 × UInt8)) (diff : UInt8) :
    pairs.foldl (fun diff (x, y) => diff ||| (x ^^^ y)) diff = 0 ↔
      diff = 0 ∧ ∀ p ∈ pairs, p.1 = p.2 := by
  induction pairs generalizing diff with
  | nil => simp
  | cons p rest ih =>
    obtain ⟨x, y⟩ := p
    rw [List.foldl_cons, ih, UInt8.or_eq_zero_iff, UInt8.xor_eq_zero_iff]
    simp [and_assoc]

theorem constantTimeEq_iff {a b : Bytes} : constantTimeEq a b = true ↔ a = b := by
  rw [constantTimeEq, Bool.and_eq_true, beq_iff_eq, beq_iff_eq, foldl_or_eq_zero_iff]
  constructor
  · rintro ⟨hl, -, h⟩
    induction a generalizing b with
    | nil => simpa using hl.symm
    | cons x xs ih =>
      cases b with
      | nil => simp at hl
      | cons y ys =>
        simp only [List.zip_cons_cons, List.forall_mem_cons] at h
        rw [h.1, ih (by simpa using hl) h.2]
  · rintro rfl
    refine ⟨rfl, rfl, fun p hp => ?_⟩
    induction a with
    | nil => cases hp
    | cons x xs ih =>
      rcases List.mem_cons.mp hp with rfl | hp
      · rfl
      · exact ih hp

/-- A text up to its first zero byte, where the system and readers of JSON take it to end. -/
def untilZero (text : Bytes) : Bytes := text.takeWhile (· != 0)

/-- The bytes of a 32-bit word, most significant first. -/
def ofWord (w : UInt32) : Bytes :=
  [(w >>> 24).toUInt8, (w >>> 16).toUInt8, (w >>> 8).toUInt8, w.toUInt8]

/-- The 32-bit word with the given bytes, most significant first. -/
def toWord (a b c d : UInt8) : UInt32 :=
  (a.toUInt32 <<< 24) ||| (b.toUInt32 <<< 16) ||| (c.toUInt32 <<< 8) ||| d.toUInt32

@[simp] theorem length_ofWord (w : UInt32) : (ofWord w).length = 4 := rfl

end Bytes

end FleetControl
