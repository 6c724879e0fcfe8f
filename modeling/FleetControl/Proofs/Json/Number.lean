import FleetControl.Proofs.Json.Reader
import FleetControl.Proofs.Number.Shortest

/-!
# Texts of doubles — what is read of them

A number's text is put together of digits in front of the point, digits behind it and an exponent
(`Literal`).  Such a text is one token (`Literal.WellFormed.scans`), and it is read as the double
that is nearest to what the parts stand for (`Literal.WellFormed.ofLiteral_text`).  The text of a
double is put together of the shortest digits of the double in one of four ways (`Literal.ofSize`),
all of which keep their value (`Literal.near_ofSize`), so a finite double is read back
(`parse?_double`).
-/

namespace FleetControl.Json

/-- The parts of a number's text that is not just a whole number. -/
structure Literal where
  whole : Bytes
  places : Bytes
  exponent : Option ℤ

namespace Literal

/-- An exponent of at least two digits, with its sign. -/
def exponentText (e : ℤ) : Bytes :=
  0x65 :: (if e < 0 then 0x2d else 0x2b) :: Decimal.fill 2 (Decimal.ofNat e.natAbs)

/-- What stands behind the digits in front of the point. -/
def tail (l : Literal) : Bytes :=
  (if l.places = [] then [] else 0x2e :: l.places) ++ (l.exponent.map exponentText).getD []

def text (l : Literal) : Bytes := l.whole ++ l.tail

/-- No zero is in front of other digits, the point stands between digits, and there is a point or an
exponent. -/
structure WellFormed (l : Literal) : Prop where
  isDigit_whole : ∀ b ∈ l.whole, Decimal.isDigit b = true
  isDigit_places : ∀ b ∈ l.places, Decimal.isDigit b = true
  ne_nil : l.whole ≠ []
  head : l.whole = [0x30] ∨ l.whole.head? ≠ some 0x30
  tail_ne_nil : l.tail ≠ []
  exponent_lt : ∀ e ∈ l.exponent, e.natAbs < 10 ^ exponentDigitsKept

end Literal

/-! ### The phases of a number -/

variable {ds : Bytes} {p p' : Phase} {l : Literal}

theorem foldl_phases (h : ds.foldlM Phase.next p = some p') (read : Bytes) (tokens : List Token) :
    ds.foldl Scanner.step ⟨.number p read, tokens⟩ =
      ⟨.number p' (ds.reverse ++ read), tokens⟩ := by
  induction ds generalizing p read with
  | nil => cases h; rfl
  | cons b rest ih =>
      rw [List.foldlM_cons] at h
      obtain ⟨q, hq, h⟩ := Option.bind_eq_some_iff.mp h
      have hstep : Scanner.step ⟨.number p read, tokens⟩ b = ⟨.number q (b :: read), tokens⟩ := by
        simp only [Scanner.step, hq]
      rw [List.foldl_cons, hstep, ih h, List.reverse_cons, List.append_assoc,
        List.singleton_append]

/-- Digits keep a number in a phase that takes digits. -/
theorem phases_digits (hp : ∀ b, Decimal.isDigit b = true → p.next b = some p)
    (h : ∀ b ∈ ds, Decimal.isDigit b = true) : ds.foldlM Phase.next p = some p := by
  induction ds with
  | nil => rfl
  | cons b rest ih =>
      obtain ⟨hb, hrest⟩ := List.forall_mem_cons.mp h
      rw [List.foldlM_cons, hp b hb]
      exact ih hrest

/-- At least one digit leads from a phase to one that takes digits. -/
theorem phases_digits_of_ne_nil (hp : ∀ b, Decimal.isDigit b = true → p.next b = some p')
    (hp' : ∀ b, Decimal.isDigit b = true → p'.next b = some p') (hne : ds ≠ [])
    (h : ∀ b ∈ ds, Decimal.isDigit b = true) : ds.foldlM Phase.next p = some p' := by
  cases ds with
  | nil => exact absurd rfl hne
  | cons d rest =>
      obtain ⟨hd, hrest⟩ := List.forall_mem_cons.mp h
      rw [List.foldlM_cons, hp d hd]
      exact phases_digits hp' hrest

theorem phases_append {es : Bytes} {q : Phase} (h : ds.foldlM Phase.next p = some p')
    (h' : es.foldlM Phase.next p' = some q) : (ds ++ es).foldlM Phase.next p = some q := by
  rw [List.foldlM_append, h]
  exact h'

theorem phases_cons {b : UInt8} {q : Phase} (h : p.next b = some p')
    (h' : ds.foldlM Phase.next p' = some q) : (b :: ds).foldlM Phase.next p = some q := by
  rw [List.foldlM_cons, h]
  exact h'

namespace Literal

/-- The digits in front of the point lead to a phase in which the point or the exponent begins. -/
theorem WellFormed.phases_whole (h : l.WellFormed) : ∃ p, (p = .zero ∨ p = .whole) ∧
    l.whole.foldlM Phase.next .minus = some p ∧
    ∀ tokens, l.whole.foldl Scanner.step ⟨.blank, tokens⟩ = ⟨.number p l.whole.reverse, tokens⟩ := by
  cases e : l.whole with
  | nil => exact absurd e h.ne_nil
  | cons d rest =>
      obtain ⟨hd, hrest⟩ := List.forall_mem_cons.mp (e ▸ h.isDigit_whole)
      rcases e ▸ h.head with hzero | hhead
      · rw [hzero]
        exact ⟨.zero, .inl rfl, rfl, fun _ => rfl⟩
      · have hz : d ≠ 0x30 := fun hz => hhead (congrArg some hz)
        have hdigits : rest.foldlM Phase.next .whole = some .whole :=
          phases_digits (fun b hb => if_pos hb) hrest
        have hfirst : Phase.next .minus d = some .whole := (if_neg hz).trans (if_pos hd)
        refine ⟨.whole, .inr rfl, phases_cons hfirst hdigits, fun tokens => ?_⟩
        rw [List.foldl_cons, (step_digit hd hz tokens).1, foldl_phases hdigits, List.reverse_cons]

theorem phases_exponentText (hp : p.next 0x65 = some .exponent) (e : ℤ) :
    (exponentText e).foldlM Phase.next p = some .exponentDigits := by
  have hne : Decimal.fill 2 (Decimal.ofNat e.natAbs) ≠ [] := by
    intro h
    exact Decimal.ofNat_ne_nil _ (List.append_eq_nil_iff.mp h).2
  have hdigits : (Decimal.fill 2 (Decimal.ofNat e.natAbs)).foldlM Phase.next .exponentSign =
      some .exponentDigits :=
    phases_digits_of_ne_nil (fun _ hb => if_pos hb) (fun _ hb => if_pos hb) hne
      fun _ => Decimal.isDigit_of_mem_fill fun _ => Decimal.isDigit_of_mem_ofNat
  have hsign : Phase.next .exponent (if e < 0 then 0x2d else 0x2b) = some .exponentSign := by
    split <;> rfl
  exact phases_cons hp (phases_cons hsign hdigits)

/-- What stands behind the digits in front of the point leads to an end. -/
theorem WellFormed.phases_tail (h : l.WellFormed) (hp : p = .zero ∨ p = .whole) :
    ∃ q, q.isEnd = true ∧ l.tail.foldlM Phase.next p = some q := by
  have hpoint : p.next 0x2e = some .point := by rcases hp with rfl | rfl <;> rfl
  have hexponent : p.next 0x65 = some .exponent := by rcases hp with rfl | rfl <;> rfl
  have hne := h.tail_ne_nil
  rw [tail] at hne ⊢
  by_cases hplaces : l.places = []
  · rw [if_pos hplaces, List.nil_append] at hne ⊢
    cases he : l.exponent with
    | none => rw [he] at hne; exact absurd rfl hne
    | some e => exact ⟨.exponentDigits, rfl, phases_exponentText hexponent e⟩
  · rw [if_neg hplaces]
    have hfraction : (0x2e :: l.places).foldlM Phase.next p = some .fraction :=
      phases_cons hpoint (phases_digits_of_ne_nil (fun _ hb => if_pos hb)
        (fun _ hb => if_pos hb) hplaces h.isDigit_places)
    cases l.exponent with
    | none => exact ⟨.fraction, rfl, phases_append hfraction rfl⟩
    | some e =>
        exact ⟨.exponentDigits, rfl, phases_append hfraction (phases_exponentText rfl e)⟩

/-- The text of a number is one token, with or without a minus sign. -/
theorem WellFormed.scans (h : l.WellFormed) :
    Scans l.text [.number l.text] ∧ Scans (0x2d :: l.text) [.number (0x2d :: l.text)] := by
  obtain ⟨p, hp, hwhole, hstart⟩ := h.phases_whole
  obtain ⟨q, hq, htail⟩ := h.phases_tail hp
  have hphases : l.text.foldlM Phase.next .minus = some q := phases_append hwhole htail
  constructor
  · intro before
    have hread : l.text.foldl Scanner.step ⟨.blank, before⟩ =
        ⟨.number q l.text.reverse, before⟩ := by
      rw [text, List.foldl_append, hstart, foldl_phases htail, ← List.reverse_append]
    have hend := Scanner.Behind.number l.text.reverse before hq
    rw [hread]
    rwa [List.reverse_reverse] at hend
  · intro before
    have hminus : Scanner.step ⟨.blank, before⟩ 0x2d = ⟨.number .minus [0x2d], before⟩ := rfl
    have hend := Scanner.Behind.number (l.text.reverse ++ [0x2d]) before hq
    rw [List.foldl_cons, hminus, foldl_phases hphases]
    rwa [List.reverse_append, List.reverse_reverse] at hend

/-! ### The value of a number -/

/-- No digit and no sign is the letter of an exponent. -/
theorem dropWhile_point (hd : ∀ b ∈ l.places, Decimal.isDigit b = true) (rest : Bytes) :
    ((if l.places = [] then [] else 0x2e :: l.places) ++ rest).dropWhile
        (fun b => b != 0x65 && b != 0x45) =
      rest.dropWhile (fun b => b != 0x65 && b != 0x45) := by
  refine List.dropWhile_append_of_pos fun b hb => ?_
  split at hb
  · cases hb
  · rcases List.mem_cons.mp hb with rfl | hb
    · rfl
    · rcases isDigit_cases b (hd b hb) with
        rfl | rfl | rfl | rfl | rfl | rfl | rfl | rfl | rfl | rfl <;> rfl

/-- The exponent of a text is read as it was written. -/
theorem size_exponentText {e : ℤ} (he : e.natAbs < 10 ^ exponentDigitsKept) :
    let exponentText := (exponentText e).drop 1
    let size := (exponentText.dropWhile fun b => b == 0x2b || b == 0x2d).dropWhile (· == 0x30)
    let size := if size.length ≤ exponentDigitsKept then Decimal.toNat size else Nat.pow 10 9
    (if exponentText.head? == some 0x2d then -Int.ofNat size else Int.ofNat size) = e := by
  obtain ⟨digits, hdigits⟩ : ∃ ds, ds = Decimal.fill 2 (Decimal.ofNat e.natAbs) := ⟨_, rfl⟩
  obtain ⟨sign, hsign⟩ : ∃ b : UInt8, b = if e < 0 then 0x2d else 0x2b := ⟨_, rfl⟩
  have hdigit : ∀ b ∈ digits, Decimal.isDigit b = true := fun b hb =>
    Decimal.isDigit_of_mem_fill (fun _ => Decimal.isDigit_of_mem_ofNat) (hdigits ▸ hb)
  have hsigned : (sign :: digits).dropWhile (fun b => b == 0x2b || b == 0x2d) = digits := by
    have hfirst : (sign == 0x2b || sign == 0x2d) = true := by rw [hsign]; split <;> rfl
    rw [List.dropWhile_cons, if_pos hfirst]
    cases e : digits with
    | nil => rfl
    | cons d rest =>
        rcases isDigit_cases d (hdigit d (e ▸ List.mem_cons_self)) with
          rfl | rfl | rfl | rfl | rfl | rfl | rfl | rfl | rfl | rfl <;> rfl
  obtain ⟨size, hsize⟩ : ∃ ds, ds = digits.dropWhile (· == (0x30 : UInt8)) := ⟨_, rfl⟩
  have hvalue : Decimal.toNat size = e.natAbs := by
    rw [hsize, Decimal.toNat_dropWhile, hdigits, Decimal.toNat_fill, Decimal.toNat_ofNat]
  -- the first digit that is kept is no zero, so more digits would be a larger exponent
  have hlength : size.length ≤ exponentDigitsKept := by
    by_contra hlong
    have hne : size ≠ [] := by
      rintro hnil
      rw [hnil] at hlong
      exact hlong (Nat.zero_le _)
    have hhead : size.head? ≠ some 0x30 := by
      intro hz
      have hzero := List.head?_dropWhile_not (· == (0x30 : UInt8)) digits
      rw [← hsize, hz] at hzero
      cases hzero
    have hle := Decimal.le_toNat
      (fun b hb => hdigit b ((hsize ▸ List.dropWhile_sublist _).subset hb)) hne hhead
    have hpow : 10 ^ exponentDigitsKept ≤ 10 ^ (size.length - 1) :=
      Nat.pow_le_pow_right (by decide) (by omega)
    omega
  have hdrop : (exponentText e).drop 1 = sign :: digits := by rw [hsign, hdigits]; rfl
  simp only [hdrop, hsigned, ← hsize, if_pos hlength, hvalue, List.head?_cons]
  by_cases hneg : e < 0
  · have hminus : (some sign == some 0x2d) = true := by rw [hsign, if_pos hneg]; rfl
    rw [if_pos hminus]
    simp only [Int.ofNat_eq_natCast]
    omega
  · have hplus : ¬ (some sign == some 0x2d) = true := by rw [hsign, if_neg hneg]; decide
    rw [if_neg hplus]
    simp only [Int.ofNat_eq_natCast]
    omega

theorem WellFormed.exists_tail (h : l.WellFormed) :
    ∃ t rest, l.tail = t :: rest ∧ Decimal.isDigit t = false := by
  have hne := h.tail_ne_nil
  rw [tail] at hne ⊢
  split
  · cases he : l.exponent with
    | none => simp_all
    | some e => exact ⟨0x65, _, rfl, rfl⟩
  · exact ⟨0x2e, _, rfl, rfl⟩

theorem places_tail (h : ∀ b ∈ l.places, Decimal.isDigit b = true) :
    (if l.tail.head? == some 0x2e then l.tail.drop 1 else []).takeWhile Decimal.isDigit =
      l.places := by
  have hexponent : ((l.exponent.map exponentText).getD []).takeWhile Decimal.isDigit = [] := by
    cases l.exponent <;> rfl
  rw [tail]
  split
  · rename_i hplaces
    rw [hplaces]
    cases l.exponent <;> rfl
  · rw [List.cons_append, List.head?_cons, if_pos (beq_self_eq_true _), List.drop_succ_cons,
      List.drop_zero, List.takeWhile_append_of_pos h, hexponent, List.append_nil]

theorem WellFormed.exponent_tail (h : l.WellFormed) :
    let exponentText := (l.tail.dropWhile fun b => b != 0x65 && b != 0x45).drop 1
    let size := (exponentText.dropWhile fun b => b == 0x2b || b == 0x2d).dropWhile (· == 0x30)
    let size := if size.length ≤ exponentDigitsKept then Decimal.toNat size else Nat.pow 10 9
    (if exponentText.head? == some 0x2d then -Int.ofNat size else Int.ofNat size) =
      l.exponent.getD 0 := by
  rw [tail, dropWhile_point h.isDigit_places]
  cases he : l.exponent with
  | none => rfl
  | some e => exact size_exponentText (h.exponent_lt e he)

/-- The double that a number's text stands for is that of its digits, with the point moved. -/
theorem WellFormed.ofLiteral_eq (h : l.WellFormed) {text : Bytes} {negative : Bool}
    (hsign : (text.head? == some 0x2d) = negative)
    (htext : (if negative then text.drop 1 else text) = l.text) :
    ofLiteral text = (Double.ofDecimal? negative (l.whole ++ l.places)
      (l.exponent.getD 0 - l.places.length)).map .double := by
  obtain ⟨t, rest, ht, hdigit⟩ := h.exists_tail
  have htake : l.text.takeWhile Decimal.isDigit = l.whole := by
    rw [Literal.text, ht, List.takeWhile_append_of_pos h.isDigit_whole, List.takeWhile_cons, hdigit]
    exact List.append_nil _
  have hdrop : l.text.dropWhile Decimal.isDigit = t :: rest := by
    rw [Literal.text, ht, List.dropWhile_append_of_pos h.isDigit_whole, List.dropWhile_cons, hdigit]
    rfl
  have hplaces := places_tail h.isDigit_places
  have hexponent := h.exponent_tail
  rw [ht] at hplaces hexponent
  simp only [ofLiteral, hsign, htext, htake, hdrop, hplaces]
  exact congrArg (fun e => (Double.ofDecimal? negative _ (e - _)).map Json.double) hexponent

theorem WellFormed.ofLiteral_text (h : l.WellFormed) (negative : Bool) :
    ofLiteral (if negative then 0x2d :: l.text else l.text) =
      (Double.ofDecimal? negative (l.whole ++ l.places)
        (l.exponent.getD 0 - l.places.length)).map .double := by
  cases negative with
  | false =>
      refine h.ofLiteral_eq ?_ rfl
      rw [if_neg Bool.false_ne_true, text, List.head?_append_of_ne_nil _ h.ne_nil,
        beq_eq_false_iff_ne]
      intro hminus
      cases h.isDigit_whole 0x2d (List.mem_of_mem_head? hminus)
  | true => exact h.ofLiteral_eq rfl rfl

/-! ### The text of a double -/

/-- The parts of the text of a size. -/
def ofSize (digits : Bytes) (point : ℤ) : Literal :=
  if digits.length ≤ point ∧ point ≤ 15 then
    ⟨digits ++ List.replicate (point.toNat - digits.length) 0x30, [0x30], none⟩
  else if 0 < point ∧ point ≤ 15 then ⟨digits.take point.toNat, digits.drop point.toNat, none⟩
  else if -4 < point ∧ point ≤ 0 then
    ⟨[0x30], List.replicate (-point).toNat 0x30 ++ digits, none⟩
  else ⟨digits.take 1, digits.drop 1, some (point - 1)⟩

theorem sizeText_eq {digits : Bytes} (hne : digits ≠ []) (point : ℤ) :
    Double.sizeText digits point = (ofSize digits point).text := by
  simp only [Double.sizeText, ofSize, Int.ofNat_eq_natCast]
  split
  · rfl
  · rename_i hwritten
    split
    · rename_i hinside
      have hbehind : digits.drop point.toNat ≠ [] := by
        rw [ne_eq, List.drop_eq_nil_iff]
        omega
      simp only [text, tail, if_neg hbehind, Option.map_none, Option.getD_none, List.append_nil]
    · split
      · have hplaces : List.replicate (-point).toNat 0x30 ++ digits ≠ [] :=
          List.append_ne_nil_of_right_ne_nil _ hne
        simp only [text, tail, if_neg hplaces, Option.map_none, Option.getD_none, List.append_nil]
        rfl
      · simp only [text, tail, Option.map_some, Option.getD_some, exponentText]
        cases digits with
        | nil => exact absurd rfl hne
        | cons d rest =>
            cases rest with
            | nil => rfl
            | cons d' rest => simp

variable {digits : Bytes} {point : ℤ} {m : ℕ} {q : ℤ}

theorem wellFormed_ofSize (h : Double.Spelled digits point m q) (hs : Double.IsSize m q) :
    (ofSize digits point).WellFormed := by
  have hlength := List.length_pos_iff.mpr h.ne_nil
  obtain ⟨hsmall, hlarge⟩ := h.near.magnitude_le hs h.isDigit h.ne_nil h.head
  have hzeros (k : ℕ) : ∀ b ∈ List.replicate k (0x30 : UInt8), Decimal.isDigit b = true := by
    intro b hb
    rw [List.eq_of_mem_replicate hb]
    rfl
  have htake (k : ℕ) : ∀ b ∈ digits.take k, Decimal.isDigit b = true :=
    fun b hb => h.isDigit b (List.mem_of_mem_take hb)
  have hdrop (k : ℕ) : ∀ b ∈ digits.drop k, Decimal.isDigit b = true :=
    fun b hb => h.isDigit b (List.mem_of_mem_drop hb)
  have hfront {k : ℕ} (hk : 0 < k) : digits.take k ≠ [] ∧ (digits.take k).head? ≠ some 0x30 := by
    rw [ne_eq, List.take_eq_nil_iff, List.head?_take, if_neg hk.ne']
    exact ⟨not_or.mpr ⟨hk.ne', h.ne_nil⟩, h.head⟩
  -- the point stands behind the digits, among them or in front of them, or an exponent is written
  rw [ofSize]
  split
  · refine ⟨List.forall_mem_append.mpr ⟨h.isDigit, hzeros _⟩, hzeros 1,
      List.append_ne_nil_of_left_ne_nil h.ne_nil _, .inr ?_, List.cons_ne_nil _ _, nofun⟩
    rw [List.head?_append_of_ne_nil _ h.ne_nil]
    exact h.head
  · rename_i hwritten
    split
    · rename_i hinside
      obtain ⟨hne, hhead⟩ := hfront (by omega : 0 < point.toNat)
      have hbehind : digits.drop point.toNat ≠ [] := by
        rw [ne_eq, List.drop_eq_nil_iff]
        omega
      refine ⟨htake _, hdrop _, hne, .inr hhead, ?_, nofun⟩
      rw [tail, if_neg hbehind]
      exact List.cons_ne_nil _ _
    · split
      · refine ⟨hzeros 1, List.forall_mem_append.mpr ⟨hzeros _, h.isDigit⟩, List.cons_ne_nil _ _,
          .inl rfl, ?_, nofun⟩
        rw [tail, if_neg (List.append_ne_nil_of_right_ne_nil _ h.ne_nil)]
        exact List.cons_ne_nil _ _
      · obtain ⟨hne, hhead⟩ := hfront Nat.one_pos
        refine ⟨htake _, hdrop _, hne, .inr hhead,
          List.append_ne_nil_of_right_ne_nil _ (List.cons_ne_nil _ _), ?_⟩
        rintro e ⟨⟩
        have hkept : 10 ^ exponentDigitsKept = 1000000000 := rfl
        omega

/-- Around the digits of a size only zeros are written, and the point stands where it stood. -/
theorem digits_ofSize (hne : digits ≠ []) (point : ℤ) : ∃ front behind : ℕ,
    (ofSize digits point).whole ++ (ofSize digits point).places =
      List.replicate front 0x30 ++ digits ++ List.replicate behind 0x30 ∧
    (ofSize digits point).exponent.getD 0 - (ofSize digits point).places.length =
      point - digits.length - behind ∧
    front ≤ 4 ∧ behind ≤ 16 := by
  have hlength := List.length_pos_iff.mpr hne
  rw [ofSize]
  split
  · refine ⟨0, point.toNat - digits.length + 1, ?_, ?_, by omega, by omega⟩
    · rw [List.replicate_succ', List.replicate_zero, List.nil_append, List.append_assoc]
    · simp only [Option.getD_none, List.length_singleton]
      omega
  · split
    · refine ⟨0, 0, ?_, ?_, by omega, by omega⟩
      · simp only [List.take_append_drop, List.replicate_zero, List.nil_append, List.append_nil]
      · simp only [Option.getD_none, List.length_drop]
        omega
    · split
      · refine ⟨(-point).toNat + 1, 0, ?_, ?_, by omega, by omega⟩
        · rw [List.replicate_succ, List.replicate_zero, List.append_nil]
          rfl
        · simp only [Option.getD_none, List.length_append, List.length_replicate]
          omega
      · refine ⟨0, 0, ?_, ?_, by omega, by omega⟩
        · simp only [List.take_append_drop, List.replicate_zero, List.nil_append, List.append_nil]
        · simp only [Option.getD_some, List.length_drop]
          omega

theorem near_ofSize (h : Double.Spelled digits point m q) :
    Double.Near m q (Decimal.toNat ((ofSize digits point).whole ++ (ofSize digits point).places) *
      10 ^ ((ofSize digits point).exponent.getD 0 - (ofSize digits point).places.length)) := by
  obtain ⟨front, behind, hdigits, hexponent, -, -⟩ := digits_ofSize h.ne_nil point
  have hvalue : ((Decimal.toNat digits * 10 ^ behind : ℕ) : ℚ) *
      10 ^ (point - digits.length - behind) =
      Decimal.toNat digits * 10 ^ (point - digits.length) := by
    rw [Nat.cast_mul, Nat.cast_pow, mul_assoc, Nat.cast_ofNat, ← zpow_natCast,
      ← zpow_add₀ (by norm_num), add_sub_cancel]
  rw [hdigits, hexponent, List.append_assoc, Decimal.toNat_replicate_append,
    Decimal.toNat_append_replicate, hvalue]
  exact h.near

end Literal

/-- The text of a double is put together of parts that are read as the double. -/
theorem exists_literal {x : Double} (hf : x.isFinite = true) (h₀ : x.bits <<< 1 ≠ 0) :
    ∃ l : Literal, l.WellFormed ∧
      x.toText = (if x.isNegative then 0x2d :: l.text else l.text) ∧
      ofLiteral x.toText = some (.double x) := by
  have hs := Double.isSize_decompose hf h₀
  have h := Double.spelled_shortest hf h₀
  obtain ⟨digits, hdigits⟩ : ∃ ds, ds = x.shortest.1 := ⟨_, rfl⟩
  obtain ⟨point, hpoint⟩ : ∃ p, p = x.shortest.2 := ⟨_, rfl⟩
  rw [← hdigits, ← hpoint] at h
  obtain ⟨l, hl⟩ : ∃ l, l = Literal.ofSize digits point := ⟨_, rfl⟩
  have hwf : l.WellFormed := hl ▸ Literal.wellFormed_ofSize h hs
  have htext : x.toText = if x.isNegative then 0x2d :: l.text else l.text := by
    rw [Double.toText, if_neg h₀, hl, ← Literal.sizeText_eq h.ne_nil, hdigits, hpoint]
  have hlength : (l.whole ++ l.places).length ≤ Double.significant := by
    obtain ⟨front, behind, hdigits, -, hfront, hbehind⟩ := Literal.digits_ofSize h.ne_nil point
    have hsignificant : Double.significant = 800 := rfl
    have hle := h.length_le
    rw [hl, hdigits]
    simp only [List.length_append, List.length_replicate]
    omega
  refine ⟨l, hwf, htext, ?_⟩
  rw [htext, hwf.ofLiteral_text, Double.ofDecimal?_eq x.isNegative hs
    (List.forall_mem_append.mpr ⟨hwf.isDigit_whole, hwf.isDigit_places⟩) hlength
    (hl ▸ Literal.near_ofSize h), Double.eq_of_sizeBits]
  rfl

/-- A finite double is read back from its text. -/
theorem parse?_double {x : Double} (hf : x.isFinite = true) :
    parse? (Json.double x).write = some (.double x) := by
  by_cases h₀ : x.bits <<< 1 = 0
  · -- there are two zeros
    have hzero := Double.size_eq_zero_iff.mp h₀
    have hlt := x.bits.toNat_lt
    have hcases : x.bits.toNat = 0 ∨ x.bits.toNat = 2 ^ 63 := by omega
    have hx : x = ⟨0⟩ ∨ x = ⟨0x8000000000000000⟩ :=
      hcases.imp (fun h => congrArg Double.mk (UInt64.toNat_inj.mp h))
        (fun h => congrArg Double.mk (UInt64.toNat_inj.mp h))
    rcases hx with rfl | rfl <;> rfl
  · obtain ⟨l, hwf, htext, hread⟩ := exists_literal hf h₀
    have hscans : Scans x.toText [.number x.toText] := by
      rw [htext]
      cases x.isNegative with
      | false => exact hwf.scans.1
      | true => exact hwf.scans.2
    have hspells : Spells x.toText (.double x) :=
      spells_token hscans fun stack => by simp only [Reader.beginValue, hread]
    have hwrite : (Json.double x).write = x.toText := by
      rw [write_double, doubleText, if_pos hf]
    exact (hwrite ▸ hspells).parse? (le_of_mem_write _)

end FleetControl.Json
