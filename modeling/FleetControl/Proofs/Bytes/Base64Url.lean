import FleetControl.Bytes.Base64Url
import FleetControl.Proofs.Bytes

/-!
# Unpadded base64 — reading accepts what writing produces

`cut` takes bytes apart into values of six bits, three bytes at a time, and `join` puts four values
at a time together.  Values join to nothing but the bytes that they are the cut of (`join_cut`,
`cut_of_join`), and characters stand for values one to one (`mapM_value?_eq_some_iff`).  So every
text that can be read is the written form of what is read from it (`decode_eq_ok_iff`), and no byte
string has two.
-/

namespace FleetControl.Base64Url

variable {text data : Bytes} {values : List UInt8}

/-! ### Bytes and values of six bits -/

/-- The values of six bits that bytes consist of. -/
def cut : Bytes → List UInt8
  | a :: b :: c :: rest =>
    a / 4 :: (a % 4 * 16 + b / 16) :: (b % 16 * 4 + c / 64) :: c % 64 :: cut rest
  | [a, b] => [a / 4, a % 4 * 16 + b / 16, b % 16 * 4]
  | [a] => [a / 4, a % 4 * 16]
  | [] => []

/-- The bytes that values of six bits consist of, if no bits are left over but zeros. -/
def join : List UInt8 → Option Bytes
  | a :: b :: c :: d :: rest =>
    (join rest).map ((a * 4 + b / 16) :: (b % 16 * 16 + c / 4) :: (c % 4 * 64 + d) :: ·)
  | [a, b, c] => if c % 4 = 0 then some [a * 4 + b / 16, b % 16 * 16 + c / 4] else none
  | [a, b] => if b % 16 = 0 then some [a * 4 + b / 16] else none
  | [_] => none
  | [] => some []

theorem cutOnto_eq (data : Bytes) (done : List UInt8) :
    cutOnto data done = (cut data).reverse ++ done := by
  induction data using cut.induct generalizing done with
  | case1 a b c rest ih => simp [cutOnto, cut, ih]
  | case2 | case3 | case4 => simp [cutOnto, cut]

theorem joinOnto_eq (values : List UInt8) (done : Bytes) :
    joinOnto values done = (join values).map fun joined => joined.reverse ++ done := by
  induction values using join.induct generalizing done with
  | case1 a b c d rest ih => simp [joinOnto, join, ih, Function.comp_def]
  | case2 _ _ _ h | case3 _ _ _ h | case4 _ _ h | case5 _ _ h => simp [joinOnto, join, h]
  | case6 | case7 => simp [joinOnto, join]

theorem encode_eq (data : Bytes) : encode data = (cut data).map character := by
  rw [encode, cutOnto_eq, List.append_nil, List.reverse_reverse]

theorem length_cut (data : Bytes) : (cut data).length = (4 * data.length + 2) / 3 := by
  induction data using cut.induct with
  | case1 a b c rest ih => simp only [cut, List.length_cons, ih]; omega
  | case2 | case3 | case4 => simp [cut]

theorem length_encode (data : Bytes) : (encode data).length = (4 * data.length + 2) / 3 := by
  rw [encode_eq, List.length_map, length_cut]

theorem lt_of_mem_cut {v : UInt8} (h : v ∈ cut data) : v < 64 := by
  induction data using cut.induct with
  | case1 a b c rest ih =>
      simp only [cut, List.mem_cons] at h
      rcases h with rfl | rfl | rfl | rfl | h
      · grind
      · grind
      · grind
      · grind
      · exact ih h
  | case2 a b =>
      simp only [cut, List.mem_cons, List.not_mem_nil, or_false] at h
      rcases h with rfl | rfl | rfl <;> grind
  | case3 a =>
      simp only [cut, List.mem_cons, List.not_mem_nil, or_false] at h
      rcases h with rfl | rfl <;> grind
  | case4 => cases h

/-- Bytes are joined again from their values. -/
theorem join_cut (data : Bytes) : join (cut data) = some data := by
  induction data using cut.induct with
  | case1 a b c rest ih =>
      have ha : a / 4 * 4 + (a % 4 * 16 + b / 16) / 16 = a := by grind
      have hb : (a % 4 * 16 + b / 16) % 16 * 16 + (b % 16 * 4 + c / 64) / 4 = b := by grind
      have hc : (b % 16 * 4 + c / 64) % 4 * 64 + c % 64 = c := by grind
      rw [cut, join, ih, Option.map_some, ha, hb, hc]
  | case2 a b =>
      have ha : a / 4 * 4 + (a % 4 * 16 + b / 16) / 16 = a := by grind
      have hb : (a % 4 * 16 + b / 16) % 16 * 16 + b % 16 * 4 / 4 = b := by grind
      have hclean : b % 16 * 4 % 4 = 0 := by grind
      rw [cut, join, if_pos hclean, ha, hb]
  | case3 a =>
      have ha : a / 4 * 4 + a % 4 * 16 / 16 = a := by grind
      have hclean : a % 4 * 16 % 16 = 0 := by grind
      rw [cut, join, if_pos hclean, ha]
  | case4 => rfl

/-- Values that join to bytes are the values of these. -/
theorem cut_of_join (hv : ∀ v ∈ values, v < 64) (h : join values = some data) :
    cut data = values := by
  induction values using join.induct generalizing data with
  | case1 a b c d rest ih =>
      simp only [List.forall_mem_cons] at hv
      obtain ⟨ha, hb, hc, hd, hrest⟩ := hv
      rw [join] at h
      obtain ⟨joined, hj, rfl⟩ := Option.map_eq_some_iff.mp h
      -- each value is put together of the pieces that fell into two bytes
      have ea : (a * 4 + b / 16) / 4 = a := by grind
      have eb : (a * 4 + b / 16) % 4 * 16 + (b % 16 * 16 + c / 4) / 16 = b := by grind
      have ec : (b % 16 * 16 + c / 4) % 16 * 4 + (c % 4 * 64 + d) / 64 = c := by grind
      have ed : (c % 4 * 64 + d) % 64 = d := by grind
      rw [cut, ih hrest hj, ea, eb, ec, ed]
  | case2 a b c hclean =>
      simp only [List.forall_mem_cons] at hv
      obtain ⟨ha, hb, hc, -⟩ := hv
      rw [join, if_pos hclean] at h
      cases h
      have ea : (a * 4 + b / 16) / 4 = a := by grind
      have eb : (a * 4 + b / 16) % 4 * 16 + (b % 16 * 16 + c / 4) / 16 = b := by grind
      have ec : (b % 16 * 16 + c / 4) % 16 * 4 = c := by grind
      rw [cut, ea, eb, ec]
  | case4 a b hclean =>
      simp only [List.forall_mem_cons] at hv
      obtain ⟨ha, hb, -⟩ := hv
      rw [join, if_pos hclean] at h
      cases h
      have ea : (a * 4 + b / 16) / 4 = a := by grind
      have eb : (a * 4 + b / 16) % 4 * 16 = b := by grind
      rw [cut, ea, eb]
  | case3 a b c hloose => rw [join, if_neg hloose] at h; cases h
  | case5 a b hloose => rw [join, if_neg hloose] at h; cases h
  | case6 => cases h
  | case7 => cases h; rfl

/-! ### Values and characters -/

theorem value?_eq_some_iff {c v : UInt8} : value? c = some v ↔ v < 64 ∧ c = character v := by
  constructor
  · intro h
    rw [value?] at h
    -- capitals, small letters, digits, and the last two characters
    split at h
    · cases h; grind [character]
    split at h
    · cases h; grind [character]
    split at h
    · cases h; grind [character]
    split at h
    · cases h; grind [character]
    split at h
    · cases h; grind [character]
    · cases h
  · rintro ⟨hv, rfl⟩
    exact value?_character hv

theorem mapM_value?_eq_some_iff :
    text.mapM value? = some values ↔ (∀ v ∈ values, v < 64) ∧ text = values.map character := by
  induction text generalizing values with
  | nil => cases values <;> simp
  | cons c rest ih =>
      rw [List.mapM_cons, Option.bind_eq_bind, Option.bind_eq_some_iff]
      constructor
      · rintro ⟨v, hv, h⟩
        obtain ⟨vs, hvs, hvalues⟩ := Option.bind_eq_some_iff.mp h
        cases hvalues
        obtain ⟨hlt, rfl⟩ := value?_eq_some_iff.mp hv
        obtain ⟨hlts, rfl⟩ := ih.mp hvs
        exact ⟨List.forall_mem_cons.mpr ⟨hlt, hlts⟩, rfl⟩
      · rintro ⟨hlt, e⟩
        obtain ⟨v, vs, rfl, rfl, rfl⟩ := List.map_eq_cons_iff.mp e.symm
        obtain ⟨hv, hvs⟩ := List.forall_mem_cons.mp hlt
        refine ⟨v, value?_character hv, ?_⟩
        rw [ih.mpr ⟨hvs, rfl⟩]
        rfl

/-! ### Written forms -/

/-- The texts that can be read are the written forms. -/
theorem decode_eq_ok_iff : decode text = .ok data ↔ text = encode data := by
  rw [encode_eq]
  constructor
  · intro h
    rw [decode] at h
    split at h
    · cases h
    cases hm : text.mapM value? with
    | none => rw [hm] at h; cases h
    | some values =>
        obtain ⟨hlt, rfl⟩ := mapM_value?_eq_some_iff.mp hm
        simp only [hm, joinOnto_eq] at h
        cases hj : join values with
        | none => rw [hj] at h; cases h
        | some joined =>
            rw [hj] at h
            cases h
            simp only [List.append_nil, List.reverse_reverse, cut_of_join hlt hj]
  · rintro rfl
    have hm : ((cut data).map character).mapM value? = some (cut data) :=
      mapM_value?_eq_some_iff.mpr ⟨fun _ => lt_of_mem_cut, rfl⟩
    -- no written form has one character more than a multiple of four
    have hl : ((cut data).map character).length % 4 ≠ 1 := by
      rw [List.length_map, length_cut]
      omega
    rw [decode, if_neg hl, hm]
    simp only [joinOnto_eq, join_cut, Option.map_some, List.append_nil, List.reverse_reverse]

theorem decode_encode (data : Bytes) : decode (encode data) = .ok data := decode_eq_ok_iff.mpr rfl

theorem encode_inj {data data' : Bytes} (h : encode data = encode data') : data = data' := by
  have hd := decode_encode data
  rw [h, decode_encode] at hd
  exact (Except.ok.inj hd).symm

theorem dot_not_mem_encode (data : Bytes) : (0x2e : UInt8) ∉ encode data := by
  rw [encode_eq, List.mem_map]
  rintro ⟨v, hv, h⟩
  have hvalue := value?_character (lt_of_mem_cut hv)
  rw [h] at hvalue
  cases hvalue

end FleetControl.Base64Url
