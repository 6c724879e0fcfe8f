import FleetControl.Bytes

/-!
# Hexadecimal text

Two digits a byte, most significant first.  Writing uses lower case; reading takes either case, so
more texts are read than are ever written.
-/

namespace FleetControl.Hex

/-- Why a text is not hexadecimal. -/
inductive Refusal where
  | oddLength
  | badDigit
  deriving DecidableEq, Repr

def Refusal.message : Refusal → Bytes
  | .oddLength => utf8 "hex string has odd length"
  | .badDigit => utf8 "invalid hex digit"

/-- The lower-case digit of a value below 16. -/
def digit (v : UInt8) : UInt8 := if v < 10 then 0x30 + v else 0x57 + v

/-- The value of a digit, in either case. -/
def value? (c : UInt8) : Option UInt8 :=
  if 0x30 ≤ c ∧ c ≤ 0x39 then some (c - 0x30)
  else if 0x61 ≤ c ∧ c ≤ 0x66 then some (c - 0x57)
  else if 0x41 ≤ c ∧ c ≤ 0x46 then some (c - 0x37)
  else none

def encode (data : Bytes) : Bytes :=
  data.flatMap fun (b : UInt8) => [digit (b / 16), digit (b % 16)]

/-- Joins digit values two by two onto bytes already read, which stand in reverse. -/
def joinOnto : Bytes → Bytes → Bytes
  | hi :: lo :: rest, read => joinOnto rest ((hi * 16 + lo) :: read)
  | _, read => read.reverse

def decode (text : Bytes) : Except Refusal Bytes :=
  if text.length % 2 = 1 then .error .oddLength
  else match text.mapM value? with
    | none => .error .badDigit
    | some values => .ok (joinOnto values [])

/-- Every byte is written with two digits. -/
theorem length_encode (data : Bytes) : (encode data).length = 2 * data.length := by
  induction data with
  | nil => rfl
  | cons b rest ih =>
    simp only [encode, List.flatMap_cons, List.length_append] at ih ⊢
    simp [ih]
    omega

end FleetControl.Hex
