import FleetControl.Bytes

/-!
# Unpadded base64 in the URL alphabet

Three bytes make four characters; one or two bytes left over make two or three characters whose
unused low bits are zero.  Reading insists on that, so every byte string has one written form and
`decode` accepts nothing else.
-/

namespace FleetControl.Base64Url

/-- Why a text is not base64 in this form; the earlier cause wins. -/
inductive Refusal where
  | badLength
  | badCharacter
  | looseBits
  deriving DecidableEq, Repr

def Refusal.message : Refusal → Bytes
  | .badLength => utf8 "invalid base64url length"
  | .badCharacter => utf8 "invalid base64url character"
  | .looseBits => utf8 "non-canonical base64url trailing bits"

/-- The character of a value below 64: `A`–`Z`, `a`–`z`, `0`–`9`, `-`, `_`. -/
def character (v : UInt8) : UInt8 :=
  if v < 26 then 0x41 + v
  else if v < 52 then 0x47 + v
  else if v < 62 then v - 4
  else if v = 62 then 0x2d
  else 0x5f

/-- The value of a character, if it is in the alphabet. -/
def value? (c : UInt8) : Option UInt8 :=
  if 0x41 ≤ c ∧ c ≤ 0x5a then some (c - 0x41)
  else if 0x61 ≤ c ∧ c ≤ 0x7a then some (c - 0x47)
  else if 0x30 ≤ c ∧ c ≤ 0x39 then some (c + 4)
  else if c = 0x2d then some 62
  else if c = 0x5f then some 63
  else none

/-- Cuts bytes into six-bit values, onto values already cut, which stand in reverse. -/
def cutOnto : Bytes → List UInt8 → List UInt8
  | a :: b :: c :: rest, cut =>
    cutOnto rest (c % 64 :: (b % 16 * 4 + c / 64) :: (a % 4 * 16 + b / 16) :: a / 4 :: cut)
  | [a, b], cut => b % 16 * 4 :: (a % 4 * 16 + b / 16) :: a / 4 :: cut
  | [a], cut => a % 4 * 16 :: a / 4 :: cut
  | [], cut => cut

/-- Joins six-bit values to bytes, onto bytes already joined, which stand in reverse.  A single
value left over is too few for a byte, and bits left over have to be zero. -/
def joinOnto : List UInt8 → Bytes → Option Bytes
  | a :: b :: c :: d :: rest, joined =>
    joinOnto rest ((c % 4 * 64 + d) :: (b % 16 * 16 + c / 4) :: (a * 4 + b / 16) :: joined)
  | [a, b, c], joined =>
    if c % 4 = 0 then some ((b % 16 * 16 + c / 4) :: (a * 4 + b / 16) :: joined) else none
  | [a, b], joined => if b % 16 = 0 then some ((a * 4 + b / 16) :: joined) else none
  | [_], _ => none
  | [], joined => some joined

def encode (data : Bytes) : Bytes := (cutOnto data []).reverse.map character

def decode (text : Bytes) : Except Refusal Bytes :=
  if text.length % 4 = 1 then .error .badLength
  else match text.mapM value? with
    | none => .error .badCharacter
    | some values => match joinOnto values [] with
      | none => .error .looseBits
      | some joined => .ok joined.reverse

theorem value?_character {v : UInt8} (h : v < 64) : value? (character v) = some v := by
  have key : ∀ n : Fin 64, value? (character (UInt8.ofNat n.val)) = some (UInt8.ofNat n.val) := by
    decide
  simpa using key ⟨v.toNat, by simpa [UInt8.lt_iff_toNat_lt] using h⟩

end FleetControl.Base64Url
