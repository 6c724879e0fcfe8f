import FleetControl.Json.Value

/-!
# Number literals

The value of a number's text.  A whole number that fits a word is one; every other number is the
nearest double, and a number past the largest double has no value.
-/

namespace FleetControl.Json

/-- Exponents with more digits than this are past every other limit. -/
def exponentDigitsKept : Nat := 9

/-- The value of a whole number. -/
def ofWhole (negative : Bool) (digits : Bytes) : Option Json :=
  -- Digits beyond twenty are past every word, so their value is not needed.
  let n := if digits.length ≤ 20 then Decimal.toNat digits else Nat.pow 2 64
  if negative then
    if n ≤ Nat.pow 2 63 then some (.signed (Int64.ofInt (-Int.ofNat n)))
    else (Double.ofDecimal? true digits 0).map .double
  else if n < Nat.pow 2 64 then some (.unsigned (UInt64.ofNat n))
  else (Double.ofDecimal? false digits 0).map .double

/-- The value of a number's text; none if it is past the largest double. -/
def ofLiteral (text : Bytes) : Option Json :=
  let negative := text.head? == some 0x2d
  let text := if negative then text.drop 1 else text
  let whole := text.takeWhile Decimal.isDigit
  match text.dropWhile Decimal.isDigit with
  | [] => ofWhole negative whole
  | rest =>
    let afterPoint := if rest.head? == some 0x2e then rest.drop 1 else []
    let places := afterPoint.takeWhile Decimal.isDigit
    let exponentText := (rest.dropWhile fun b => b != 0x65 && b != 0x45).drop 1
    let size := (exponentText.dropWhile fun b => b == 0x2b || b == 0x2d).dropWhile (· == 0x30)
    let size := if size.length ≤ exponentDigitsKept then Decimal.toNat size else Nat.pow 10 9
    let exponent := if exponentText.head? == some 0x2d then -Int.ofNat size else Int.ofNat size
    (Double.ofDecimal? negative (whole ++ places) (exponent - Int.ofNat places.length)).map .double

end FleetControl.Json
