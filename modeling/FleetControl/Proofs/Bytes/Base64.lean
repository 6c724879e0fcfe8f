import FleetControl.Fault
import FleetControl.Proofs.Bytes.Base64Url
import Mathlib.Data.List.DropRight

/-!
# Base64 of the URL alphabet, out of the standard one

The unpadded form can be made out of padded standard base64 (RFC 4648): writing drops the padding and
renames two characters, reading puts both back, drops the bytes that the padding stands for, and
writes the result again to see that no bits were lost.  `encodeBy` and `decodeBy` do this with any
`BlockCodec`.  If the codec is standard they are `encode` and `decode` (`encodeBy_eq`, `decodeBy_eq`),
so a text is read if and only if it is the written form of what is read, and every other text is
refused for a reason that is in the text (`decodeBy_exact`).

The one argument is about the padding: values that leave no bits over, with zeros in the place of
the padding, join to their bytes and one zero byte for each padding character (`joinGroups_padded`).
-/

namespace FleetControl

/-! ### Padded base64 of the standard alphabet -/

namespace Base64

/-- The padding character. -/
def pad : UInt8 := 0x3d

/-- The character of a value below 64: `A`–`Z`, `a`–`z`, `0`–`9`, `+`, `/`. -/
def character (v : UInt8) : UInt8 :=
  if v < 26 then 0x41 + v
  else if v < 52 then 0x47 + v
  else if v < 62 then v - 4
  else if v = 62 then 0x2b
  else 0x2f

/-- The value of a character, if it is in the alphabet. -/
def value? (c : UInt8) : Option UInt8 :=
  if 0x41 ≤ c ∧ c ≤ 0x5a then some (c - 0x41)
  else if 0x61 ≤ c ∧ c ≤ 0x7a then some (c - 0x47)
  else if 0x30 ≤ c ∧ c ≤ 0x39 then some (c + 4)
  else if c = 0x2b then some 62
  else if c = 0x2f then some 63
  else none

/-- How many padding characters fill up a group of four. -/
def padding (length : Nat) : Nat := (4 - length % 4) % 4

def encode (data : Bytes) : Bytes :=
  let values := Base64Url.cut data
  values.map character ++ List.replicate (padding values.length) pad

/-- The three bytes of each group of four values. -/
def joinGroups : List UInt8 → Bytes
  | a :: b :: c :: d :: rest =>
    (a * 4 + b / 16) :: (b % 16 * 16 + c / 4) :: (c % 4 * 64 + d) :: joinGroups rest
  | _ => []

end Base64

/-- A codec for blocks of padded base64.  Reading may fail with a text that says why. -/
structure BlockCodec where
  encode : Bytes → Bytes
  decode : Bytes → Except Bytes Bytes

/-- A codec for standard base64.  It reads padding as values that are zero, and it counts the bytes
that these stand for. -/
structure BlockCodec.IsStandard (codec : BlockCodec) : Prop where
  encode_eq : ∀ data, codec.encode data = Base64.encode data
  decode_eq : ∀ values pads, (∀ v ∈ values, v < 64) → pads ≤ 2 → (values.length + pads) % 4 = 0 →
    codec.decode (values.map Base64.character ++ List.replicate pads Base64.pad) =
      .ok (Base64.joinGroups (values ++ List.replicate pads 0))

namespace Base64

variable {v : UInt8} {values : List UInt8} {data : Bytes}

/-- The character of a value is read back. -/
theorem value?_character (h : v < 64) : value? (character v) = some v := by
  have key : ∀ n : Fin 64, value? (character (UInt8.ofNat n)) = some (UInt8.ofNat n) := by
    decide
  simpa using key ⟨v.toNat, by simpa [UInt8.lt_iff_toNat_lt] using h⟩

/-- No character of a value is the padding. -/
theorem pad_not_mem (hv : ∀ v ∈ values, v < 64) : pad ∉ values.map character := by
  rw [List.mem_map]
  rintro ⟨v, hm, h⟩
  have hvalue := value?_character (hv v hm)
  rw [h] at hvalue
  cases hvalue

/-- There are never more than two paddings. -/
theorem padding_le (h : n % 4 ≠ 1) : padding n ≤ 2 := by
  rw [padding]
  omega

/-- With its padding a text has whole groups. -/
theorem add_padding_mod (n : Nat) : (n + padding n) % 4 = 0 := by
  rw [padding]
  omega

/-- Padding is dropped up to the last character of the alphabet. -/
theorem rdropWhile_padded (hv : ∀ v ∈ values, v < 64) (pads : Nat) :
    (values.map character ++ List.replicate pads pad).rdropWhile (· = pad) =
      values.map character := by
  induction pads with
  | zero =>
      rw [List.replicate_zero, List.append_nil, List.rdropWhile_eq_self_iff]
      intro hne hlast
      exact pad_not_mem hv (of_decide_eq_true hlast ▸ List.getLast_mem hne)
  | succ pads ih =>
      rw [List.replicate_succ', ← List.append_assoc, List.rdropWhile_concat_pos _ _ _ rfl, ih]

/-- Values that leave no bits over join to the same bytes when zeros fill them up, and to a zero for
each value that was put in. -/
theorem joinGroups_padded (h : Base64Url.join values = some data) :
    joinGroups (values ++ List.replicate (padding values.length) 0) =
      data ++ List.replicate (padding values.length) 0 := by
  induction values using Base64Url.join.induct generalizing data with
  | case1 a b c d rest ih =>
      obtain ⟨joined, hj, rfl⟩ := Option.map_eq_some_iff.mp h
      have hpadding : padding (a :: b :: c :: d :: rest).length = padding rest.length := by
        simp only [padding, List.length_cons]
        omega
      rw [hpadding]
      simp only [List.cons_append, joinGroups, ih hj]
  | case2 a b c hclean =>
      rw [Base64Url.join, if_pos hclean] at h
      cases h
      have hlast : c % 4 * 64 + 0 = 0 := by rw [hclean]; rfl
      exact congrArg (fun x => [a * 4 + b / 16, b % 16 * 16 + c / 4, x]) hlast
  | case4 a b hclean =>
      rw [Base64Url.join, if_pos hclean] at h
      cases h
      have hlast : b % 16 * 16 + 0 / 4 = 0 := by rw [hclean]; rfl
      exact congrArg (fun x => [a * 4 + b / 16, x, 0]) hlast
  | case3 a b c hloose => rw [Base64Url.join, if_neg hloose] at h; cases h
  | case5 a b hloose => rw [Base64Url.join, if_neg hloose] at h; cases h
  | case6 => cases h
  | case7 => cases h; rfl

/-- Standard base64 as the RFC has it. -/
def blockCodec : BlockCodec where
  encode := encode
  decode text :=
    let body := text.rdropWhile (· = pad)
    match body.mapM value? with
    | some values =>
      if text.length % 4 = 0 then
        .ok (joinGroups (values ++ List.replicate (text.length - body.length) 0))
      else .error []
    | none => .error []

theorem mapM_value?_map_character (hv : ∀ v ∈ values, v < 64) :
    (values.map character).mapM value? = some values := by
  induction values with
  | nil => rfl
  | cons v values ih =>
      obtain ⟨hlt, hlts⟩ := List.forall_mem_cons.mp hv
      rw [List.map_cons, List.mapM_cons, value?_character hlt, ih hlts]
      rfl

/-- The codec that works on groups is a standard one. -/
theorem blockCodec_isStandard : blockCodec.IsStandard where
  encode_eq _ := rfl
  decode_eq values pads hv _ hlength := by
    have htext : (values.map character ++ List.replicate pads pad).length % 4 = 0 := by
      simpa using hlength
    simp only [blockCodec, rdropWhile_padded hv, mapM_value?_map_character hv, if_pos htext]
    rw [List.length_append, List.length_map, List.length_replicate, Nat.add_sub_cancel_left]

end Base64

/-! ### The URL alphabet over a block codec -/

namespace Base64Url

open Base64 (pad padding joinGroups joinGroups_padded)

variable {codec : BlockCodec} {text data : Bytes} {values : List UInt8} {v : UInt8}

/-- A character of the URL alphabet for one of the standard alphabet. -/
def ofStandard (c : UInt8) : UInt8 := if c = 0x2b then 0x2d else if c = 0x2f then 0x5f else c

/-- A character of the standard alphabet for one of the URL alphabet. -/
def toStandard (c : UInt8) : UInt8 := if c = 0x2d then 0x2b else if c = 0x5f then 0x2f else c

def encodeBy (codec : BlockCodec) (data : Bytes) : Bytes :=
  ((codec.encode data).rdropWhile (· = pad)).map ofStandard

def decodeBy (codec : BlockCodec) (text : Bytes) : Except Fault Bytes :=
  if text.length % 4 = 1 then .error (.validation Refusal.badLength.message)
  else if text.isEmpty then .ok []
  else if text.all fun c => (value? c).isSome then
    let pads := padding text.length
    match codec.decode (text.map toStandard ++ List.replicate pads pad) with
    | .error reason => .error (.validation (utf8 "invalid base64url: " ++ reason))
    | .ok counted =>
      let data := counted.take (counted.length - pads)
      -- bits that were lost do not come back
      if encodeBy codec data = text then .ok data
      else .error (.validation Refusal.looseBits.message)
  else .error (.validation Refusal.badCharacter.message)

/-- A standard character becomes the one of the same value. -/
theorem ofStandard_character (h : v < 64) : ofStandard (Base64.character v) = character v := by
  have key : ∀ n : Fin 64,
      ofStandard (Base64.character (UInt8.ofNat n)) = character (UInt8.ofNat n) := by decide
  simpa using key ⟨v.toNat, by simpa [UInt8.lt_iff_toNat_lt] using h⟩

/-- A character becomes the standard one of the same value. -/
theorem toStandard_character (h : v < 64) : toStandard (character v) = Base64.character v := by
  have key : ∀ n : Fin 64,
      toStandard (character (UInt8.ofNat n)) = Base64.character (UInt8.ofNat n) := by decide
  simpa using key ⟨v.toNat, by simpa [UInt8.lt_iff_toNat_lt] using h⟩

/-- Over a standard codec the written form is the one of `encode`. -/
theorem encodeBy_eq (hc : codec.IsStandard) (data : Bytes) : encodeBy codec data = encode data := by
  have hlt : ∀ v ∈ cut data, v < 64 := fun _ => lt_of_mem_cut
  rw [encodeBy, hc.encode_eq, Base64.encode, Base64.rdropWhile_padded hlt, encode_eq, List.map_map]
  exact List.map_congr_left fun v hv => ofStandard_character (hlt v hv)

/-- Characters that are the written form of some bytes have values that join to these. -/
theorem join_of_encode_eq (hv : ∀ v ∈ values, v < 64)
    (h : encode data = values.map character) : join values = some data := by
  have hcut : (encode data).mapM value? = some (cut data) :=
    mapM_value?_eq_some_iff.mpr ⟨fun _ => lt_of_mem_cut, encode_eq data⟩
  have hvalues : (encode data).mapM value? = some values :=
    mapM_value?_eq_some_iff.mpr ⟨hv, h⟩
  have hsame : cut data = values := Option.some.inj (hcut.symm.trans hvalues)
  rw [← hsame, join_cut]

/-- What is read of characters of the alphabet, over a standard codec. -/
theorem decodeBy_characters (hc : codec.IsStandard) (hv : ∀ v ∈ values, v < 64)
    (hl : values.length % 4 ≠ 1) :
    decodeBy codec (values.map character) =
      match join values with
      | some data => .ok data
      | none => .error (.validation Refusal.looseBits.message) := by
  cases values with
  | nil => rfl
  | cons v rest =>
      generalize hvalues : v :: rest = values at hv hl ⊢
      have hne : (values.map character).isEmpty = false := by rw [← hvalues]; rfl
      have hall : (values.map character).all (fun c => (value? c).isSome) = true := by
        rw [List.all_map, List.all_eq_true]
        intro v hm
        rw [Function.comp_apply, value?_character (hv v hm), Option.isSome_some]
      have hstandard : (values.map character).map toStandard = values.map Base64.character := by
        rw [List.map_map]
        exact List.map_congr_left fun v hm => toStandard_character (hv v hm)
      have hdecode := hc.decode_eq values (padding values.length) hv (Base64.padding_le hl)
        (Base64.add_padding_mod _)
      simp only [decodeBy, List.length_map, if_neg hl, hne, Bool.false_eq_true, if_false, hall,
        if_true, hstandard, hdecode, encodeBy_eq hc]
      cases hj : join values with
      | some data =>
          have htake : (data ++ List.replicate (padding values.length) (0 : UInt8)).take
              ((data ++ List.replicate (padding values.length) (0 : UInt8)).length -
                padding values.length) = data := by
            rw [List.length_append, List.length_replicate, Nat.add_sub_cancel, List.take_left]
          rw [joinGroups_padded hj, htake, encode_eq, cut_of_join hv hj]
          exact if_pos rfl
      | none =>
          -- these values are not the cut of anything, whatever was read
          refine if_neg fun h => ?_
          rw [join_of_encode_eq hv h] at hj
          cases hj

theorem mapM_value?_eq_none_iff : text.mapM value? = none ↔ ∃ c ∈ text, value? c = none := by
  induction text with
  | nil => exact ⟨nofun, fun ⟨_, hm, _⟩ => nomatch hm⟩
  | cons c rest ih =>
      rw [List.mapM_cons, List.exists_mem_cons_iff, ← ih]
      cases value? c with
      | none => simp
      | some v => cases rest.mapM value? <;> simp

/-- Over a standard codec a text is read as by `decode`. -/
theorem decodeBy_eq (hc : codec.IsStandard) (text : Bytes) :
    decodeBy codec text = (decode text).mapError fun refusal => .validation refusal.message := by
  by_cases hl : text.length % 4 = 1
  · rw [decodeBy, if_pos hl, decode, if_pos hl]
    rfl
  rw [decode, if_neg hl]
  cases hm : text.mapM value? with
  | some values =>
      obtain ⟨hv, rfl⟩ := mapM_value?_eq_some_iff.mp hm
      rw [List.length_map] at hl
      rw [decodeBy_characters hc hv hl]
      simp only [joinOnto_eq]
      cases join values with
      | some data => simp [Except.mapError]
      | none => rfl
  | none =>
      have hne : text.isEmpty = false := by
        cases text with
        | nil => cases hm
        | cons => rfl
      have hforeign : text.all (fun c => (value? c).isSome) = false := by
        obtain ⟨c, hc, hnone⟩ := mapM_value?_eq_none_iff.mp hm
        exact List.all_eq_false.mpr ⟨c, hc, by rw [hnone]; exact Bool.false_ne_true⟩
      rw [decodeBy, if_neg hl, hne, hforeign]
      rfl

/-! ### What is refused -/

/-- Why a text is refused: no number of bytes has its length, one of its characters is not in the
alphabet, or the last of them holds bits that belong to no byte. -/
inductive Refuses (text : Bytes) : Refusal → Prop where
  | badLength (hl : text.length % 4 = 1) : Refuses text .badLength
  | badCharacter {c : UInt8} (hl : text.length % 4 ≠ 1) (hm : c ∈ text) (hc : value? c = none) :
      Refuses text .badCharacter
  | looseBits {c v : UInt8} (hl : text.length % 4 ≠ 1) (halphabet : ∀ c ∈ text, value? c ≠ none)
      (hlast : text.getLast? = some c) (hv : value? c = some v)
      (hloose : text.length % 4 = 2 ∧ v % 16 ≠ 0 ∨ text.length % 4 = 3 ∧ v % 4 ≠ 0) :
      Refuses text .looseBits

/-- Values join to nothing if one is left over or if the last one leaves bits over. -/
theorem join_eq_none_iff :
    join values = none ↔ values.length % 4 = 1 ∨ ∃ v, values.getLast? = some v ∧
      (values.length % 4 = 2 ∧ v % 16 ≠ 0 ∨ values.length % 4 = 3 ∧ v % 4 ≠ 0) := by
  induction values using join.induct with
  | case1 a b c d rest ih =>
      rw [join, Option.map_eq_none_iff, ih]
      have hlength : (a :: b :: c :: d :: rest).length % 4 = rest.length % 4 := by
        simp only [List.length_cons]
        omega
      rw [hlength]
      cases rest with
      | nil => simp
      | cons v rest => simp [List.getLast?_cons]
  | case2 a b c h | case3 a b c h => simp [join, h]
  | case4 a b h | case5 a b h => simp [join, h]
  | case6 | case7 => simp [join]

/-- A text is refused for a cause that it has. -/
theorem refuses_of_decode {refusal : Refusal} (h : decode text = .error refusal) :
    Refuses text refusal := by
  rw [decode] at h
  split at h
  · rename_i hl
    cases h
    exact .badLength hl
  rename_i hl
  cases hm : text.mapM value? with
  | none =>
      obtain ⟨c, hc, hnone⟩ := mapM_value?_eq_none_iff.mp hm
      rw [hm] at h
      cases h
      exact .badCharacter hl hc hnone
  | some values =>
      have halphabet : ∀ c ∈ text, value? c ≠ none := fun c hc hnone => by
        rw [mapM_value?_eq_none_iff.mpr ⟨c, hc, hnone⟩] at hm
        cases hm
      obtain ⟨hv, rfl⟩ := mapM_value?_eq_some_iff.mp hm
      simp only [hm, joinOnto_eq] at h
      cases hj : join values with
      | some data => rw [hj] at h; cases h
      | none =>
          rw [hj] at h
          cases h
          rw [List.length_map] at hl
          obtain ⟨v, hlast, hloose⟩ := (join_eq_none_iff.mp hj).resolve_left hl
          have hlt : v < 64 := hv v (List.mem_of_getLast? hlast)
          rw [← List.length_map character] at hl hloose
          exact .looseBits hl halphabet (by rw [List.getLast?_map, hlast]; rfl)
            (value?_character hlt) hloose

/-- A text that has a cause is refused for it. -/
theorem decode_of_refuses {refusal : Refusal} (h : Refuses text refusal) :
    decode text = .error refusal := by
  cases h with
  | badLength hl => rw [decode, if_pos hl]
  | badCharacter hl hm hc => rw [decode, if_neg hl, mapM_value?_eq_none_iff.mpr ⟨_, hm, hc⟩]
  | @looseBits _ v hl halphabet hlast hv hloose =>
      cases hm : text.mapM value? with
      | none =>
          obtain ⟨c, hc, hnone⟩ := mapM_value?_eq_none_iff.mp hm
          exact absurd hnone (halphabet c hc)
      | some values =>
          obtain ⟨hlts, rfl⟩ := mapM_value?_eq_some_iff.mp hm
          rw [List.getLast?_map] at hlast
          obtain ⟨w, hw, rfl⟩ := Option.map_eq_some_iff.mp hlast
          rw [value?_character (hlts w (List.mem_of_getLast? hw))] at hv
          cases hv
          rw [List.length_map] at hloose
          have hj : join values = none := join_eq_none_iff.mpr (.inr ⟨v, hw, hloose⟩)
          rw [decode, if_neg hl, hm]
          simp only [joinOnto_eq, hj, Option.map_none]

/-- A text is refused for just the cause that it has. -/
theorem decode_eq_error_iff {refusal : Refusal} :
    decode text = .error refusal ↔ Refuses text refusal :=
  ⟨refuses_of_decode, decode_of_refuses⟩

end Base64Url

end FleetControl
