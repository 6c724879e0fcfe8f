import FleetControl.Number.Decimal

/-!
# IPv4 addresses in text
-/

namespace FleetControl.Address

/-- A number of at most three digits up to 255, without a zero in front of another digit. -/
def isOctet (text : Bytes) : Bool :=
  !text.isEmpty && text.length ≤ 3 && text.all Decimal.isDigit &&
    (text.length == 1 || text.head? != some 0x30) && Decimal.toNat text ≤ 255

/-- The parts of a text between dots. -/
def parts (text : Bytes) : List Bytes := text.splitOn 0x2e

/-- Whether a text is an address: four numbers with dots between them. -/
def isDottedQuad (text : Bytes) : Bool :=
  let parts := parts text
  parts.length == 4 && parts.all isOctet

end FleetControl.Address
