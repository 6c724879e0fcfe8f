import FleetControl.Number.Decimal

/-!
# Double-precision numbers as decimal text

A double is its sixty-four bits, which stand for a finite number or for none.  Reading a decimal
takes the nearest double, and the even one of two that are equally near.  Writing takes the fewest
digits that read back as the same double, and of those the nearest to it, again the even ones of two
that are equally near.  Both work on whole numbers alone.

Only that the digits read back is relied on, never which ones they are: a writer that uses Grisu2, as
JSON libraries do, puts down digits that read back as well but are not always the fewest or the
nearest.
-/

namespace FleetControl

/-- A double-precision number, by its bits. -/
structure Double where
  bits : UInt64
  deriving DecidableEq, Repr

namespace Double

/-- `num / den · 2^-power` as a fraction. -/
def scale (num den : Nat) (power : Int) : Nat × Nat :=
  if 0 ≤ power then (num, den * Nat.pow 2 power.toNat) else (num * Nat.pow 2 (-power).toNat, den)

/-- The whole number nearest to a fraction; a half goes to the even neighbour. -/
def roundDiv (num den : Nat) : Nat :=
  let q := num / den
  let r := num % den
  if 2 * r < den then q
  else if 2 * r = den then q + q % 2
  else q + 1

/-- The largest `e` with `2^e ≤ num / den`, for positive `num` and `den`. -/
def log2Div (num den : Nat) : Int :=
  let e : Int := Int.ofNat num.log2 - Int.ofNat den.log2
  let (n, d) := scale num den e
  if d ≤ n then e else e - 1

/-- The double nearest to a fraction with positive terms, without its sign; none if it is past the
largest. -/
def nearest? (num den : Nat) : Option UInt64 :=
  let power := max (log2Div num den - 52) (-1074)
  let (n, d) := scale num den power
  let code := (power + 1074).toNat * Nat.pow 2 52 + roundDiv n d
  if code < 2047 * Nat.pow 2 52 then some (UInt64.ofNat code) else none

def signBit (negative : Bool) : UInt64 := if negative then 0x8000000000000000 else 0

/-- Digits that can still move the nearest double; whatever comes after them is zero or not. -/
def significant : Nat := 800

/-- The double nearest to `digits · 10^exponent`; none if it is past the largest. -/
def ofDecimal? (negative : Bool) (digits : Bytes) (exponent : Int) : Option Double :=
  let digits := digits.dropWhile (· == 0x30)
  let magnitude := Int.ofNat digits.length + exponent
  if digits.isEmpty || magnitude < -400 then some ⟨signBit negative⟩
  else if 400 < magnitude then none
  else
    let rest := digits.drop significant
    let digits := if rest.any (· != 0x30) then digits.take significant ++ [0x31]
      else digits.take significant
    let exponent := magnitude - Int.ofNat digits.length
    let n := Decimal.toNat digits
    let code? := if 0 ≤ exponent then nearest? (n * Nat.pow 10 exponent.toNat) 1
      else nearest? n (Nat.pow 10 (-exponent).toNat)
    code?.map fun code => ⟨signBit negative ||| code⟩

def isNegative (x : Double) : Bool := x.bits >>> 63 == 1

/-- Whether the bits stand for a number at all, which infinities are not. -/
def isFinite (x : Double) : Bool := (x.bits >>> 52) &&& 0x7ff != 0x7ff

/-- The whole number `m` and the power `q` with `m · 2^q` the size of the number. -/
def decompose (x : Double) : Nat × Int :=
  let exponent := ((x.bits >>> 52) &&& 0x7ff).toNat
  let mantissa := (x.bits &&& 0xfffffffffffff).toNat
  if exponent = 0 then (mantissa, -1074)
  else (mantissa + Nat.pow 2 52, Int.ofNat exponent - 1075)

/-- The numbers that read back as a double: from `low / den` to `high / den` around
`value / den`, with the ends if `closed`. -/
structure Interval where
  low : Nat
  value : Nat
  high : Nat
  den : Nat
  closed : Bool

/-- Everything nearer to the double than to its neighbours. -/
def interval (x : Double) : Interval :=
  let (m, q) := x.decompose
  -- Below a power of two the next double is half as far away.
  let below := if m = Nat.pow 2 52 ∧ -1074 < q then 4 * m - 1 else 4 * m - 2
  let (k, d) := scale 1 1 (2 - q)
  ⟨below * k, 4 * m * k, (4 * m + 2) * k, d, m % 2 = 0⟩

/-- Whether `n · 10^power` reads back as the double that the interval is of. -/
def Interval.holds (i : Interval) (n : Nat) (power : Int) : Bool :=
  let (n, den) := if 0 ≤ power then (n * Nat.pow 10 power.toNat * i.den, 1)
    else (n * i.den, Nat.pow 10 (-power).toNat)
  if i.closed then i.low * den ≤ n && n ≤ i.high * den
  else i.low * den < n && n < i.high * den

/-- The value as a fraction of `10^power`. -/
def Interval.inUnits (i : Interval) (power : Int) : Nat × Nat :=
  if 0 ≤ power then (i.value, i.den * Nat.pow 10 power.toNat)
  else (i.value * Nat.pow 10 (-power).toNat, i.den)

/-- A number on the grid of `10^power` that reads back, if there is one: the nearer of two, and the
even one if both are equally near. -/
def Interval.hit? (i : Interval) (power : Int) : Option Nat :=
  let (num, den) := i.inUnits power
  let lower := num / den
  match i.holds lower power, i.holds (lower + 1) power with
  | true, true => some (roundDiv num den)
  | true, false => some lower
  | false, true => some (lower + 1)
  | false, false => none

/-- The number of decimal digits in front of the point, counting down below one: the `n` with
`10^(n-1) ≤ value < 10^n`. -/
def Interval.magnitude (i : Interval) : Int :=
  let whole := i.value / i.den
  if whole = 0 then
    let inverse := (i.den - 1) / i.value
    1 - Int.ofNat (Nat.toDigits 10 inverse).length
  else Int.ofNat (Nat.toDigits 10 whole).length

/-- Looks for a hit with `digits` digits, then with one more, up to `more` times. -/
def Interval.search (i : Interval) (magnitude : Int) (digits : Nat) : Nat → Option (Nat × Int)
  | 0 => none
  | more + 1 =>
    let power := magnitude - Int.ofNat digits
    match i.hit? power with
    | some n => some (n, power)
    | none => i.search magnitude (digits + 1) more

/-- The shortest digits of a double that is not zero, and the place of the point after the first
of them. -/
def shortest (x : Double) : Bytes × Int :=
  let i := x.interval
  match i.search i.magnitude 1 17 with
  | none => ([0x30], 1)
  | some (n, power) =>
    let digits := Decimal.ofNat n
    let point := Int.ofNat digits.length + power
    ((digits.reverse.dropWhile (· == 0x30)).reverse, point)

/-- The text of a double that is not zero, without its sign.  Up to fifteen digits before the point
and up to four zeros after it are written out, else there is an exponent of at least two digits. -/
def sizeText (digits : Bytes) (point : Int) : Bytes :=
  let count := digits.length
  if Int.ofNat count ≤ point ∧ point ≤ 15 then
    digits ++ List.replicate (point.toNat - count) 0x30 ++ utf8 ".0"
  else if 0 < point ∧ point ≤ 15 then
    digits.take point.toNat ++ 0x2e :: digits.drop point.toNat
  else if -4 < point ∧ point ≤ 0 then
    utf8 "0." ++ List.replicate (-point).toNat 0x30 ++ digits
  else
    let mantissa := if count = 1 then digits else digits.take 1 ++ 0x2e :: digits.drop 1
    let exponent := point - 1
    let sign : UInt8 := if exponent < 0 then 0x2d else 0x2b
    mantissa ++ 0x65 :: sign :: Decimal.fill 2 (Decimal.ofNat exponent.natAbs)

/-- The text of a finite double, with the fewest digits that read back as it. -/
def toText (x : Double) : Bytes :=
  let size := if x.bits <<< 1 = 0 then utf8 "0.0"
    else let (digits, point) := x.shortest; sizeText digits point
  if x.isNegative then 0x2d :: size else size

end Double

end FleetControl
