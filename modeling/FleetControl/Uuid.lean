import FleetControl.Bytes.Hex
import FleetControl.Digest.Hmac
import FleetControl.Number.Decimal

/-!
# UUIDs in text
-/

namespace FleetControl.Uuid

def isHexDigit (b : UInt8) : Bool :=
  (0x30 ≤ b && b ≤ 0x39) || (0x61 ≤ b && b ≤ 0x66) || (0x41 ≤ b && b ≤ 0x46)

/-- The lengths of the groups of digits between hyphens. -/
def groups : List Nat := [8, 4, 4, 4, 12]

/-- Whether a text is groups of digits of the given lengths with a hyphen between neighbours. -/
def matchesGroups : List Nat → Bytes → Bool
  | [], text => text.isEmpty
  | [n], text => text.length == n && text.all isHexDigit
  | n :: rest, text =>
    (text.take n).length == n && (text.take n).all isHexDigit &&
      (text.drop n).head? == some 0x2d && matchesGroups rest (text.drop (n + 1))

/-- Whether a text is a UUID: thirty-two digits in either case, in five groups. -/
def isValid (text : Bytes) : Bool := matchesGroups groups text

/-- Digits in groups of the given lengths with hyphens between them. -/
def group : List Nat → Bytes → Bytes
  | [], _ => []
  | [n], digits => digits.take n
  | n :: rest, digits => digits.take n ++ 0x2d :: group rest (digits.drop n)

/-- The text of sixteen bytes as a UUID. -/
def ofBytes (bytes : Bytes) : Bytes := group groups (Hex.encode bytes)

/-- Marks sixteen bytes as those of a random UUID, in the seventh and the ninth byte. -/
def markRandom (bytes : Bytes) : Bytes :=
  (bytes.modify 6 fun b => b &&& 0x0f ||| 0x40).modify 8 fun b => b &&& 0x3f ||| 0x80

/-- The UUID with a number in the sequence that a secret stands for. -/
def fromSecret (secret : Bytes) (number : Nat) : Bytes :=
  ofBytes (markRandom ((Hmac.sign secret (Decimal.ofNat number)).take 16))

end FleetControl.Uuid
