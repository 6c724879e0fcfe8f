import FleetControl.Bytes

/-!
# Decimal text of whole numbers
-/

namespace FleetControl.Decimal

def isDigit (b : UInt8) : Bool := 0x30 ≤ b && b ≤ 0x39

/-- The digits of a number, without leading zeros; zero is one digit. -/
def ofNat (n : Nat) : Bytes := (Nat.toDigits 10 n).map fun c => c.toNat.toUInt8

/-- The digits of a number after a minus sign if it is negative. -/
def ofInt : Int → Bytes
  | .ofNat n => ofNat n
  | .negSucc n => 0x2d :: ofNat (n + 1)

/-- Digits filled with zeros in front up to a width. -/
def fill (width : Nat) (digits : Bytes) : Bytes :=
  List.replicate (width - digits.length) 0x30 ++ digits

/-- The text of a number filled with zeros up to a width; a minus sign counts and stands first. -/
def ofIntFilled (width : Nat) : Int → Bytes
  | .ofNat n => fill width (ofNat n)
  | .negSucc n => 0x2d :: fill (width - 1) (ofNat (n + 1))

/-- The number that digits stand for. -/
def toNat (digits : Bytes) : Nat := digits.foldl (fun n d => 10 * n + (d.toNat - 0x30)) 0

theorem length_fill {width : Nat} {digits : Bytes} (h : digits.length ≤ width) :
    (fill width digits).length = width := by
  simp [fill]; omega

end FleetControl.Decimal
