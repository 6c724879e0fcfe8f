import FleetControl.Bytes.Utf8
import FleetControl.Json.Value

/-!
# Writing JSON

Compact text with the members of an object in key order.  `write?` refuses a value that holds
ill-formed text; `writeRepaired` repairs such text instead.  A line break never stands raw in what
is written, because control bytes are escaped.
-/

namespace FleetControl.Json

/-- The form of one byte of a text between quotes. -/
def escape (b : UInt8) : Bytes :=
  if b = 0x22 then utf8 "\\\""
  else if b = 0x5c then utf8 "\\\\"
  else if b = 0x08 then utf8 "\\b"
  else if b = 0x0c then utf8 "\\f"
  else if b = 0x0a then utf8 "\\n"
  else if b = 0x0d then utf8 "\\r"
  else if b = 0x09 then utf8 "\\t"
  else if b < 0x20 then
    utf8 "\\u00" ++ [if b < 0x10 then 0x30 else 0x31,
      if b &&& 0x0f < 10 then 0x30 + (b &&& 0x0f) else 0x57 + (b &&& 0x0f)]
  else [b]

/-- A text between quotes. -/
def quote (s : Bytes) : Bytes := 0x22 :: s.flatMap escape ++ [0x22]

/-- The text of a double; one that is not finite has none and becomes null. -/
def doubleText (x : Double) : Bytes := if x.isFinite then x.toText else utf8 "null"

mutual

/-- Writes a value after output that stands in reverse. -/
def writeOnto : Json → Bytes → Bytes
  | .null, out => (utf8 "null").reverseAux out
  | .bool true, out => (utf8 "true").reverseAux out
  | .bool false, out => (utf8 "false").reverseAux out
  | .unsigned n, out => (Decimal.ofNat n.toNat).reverseAux out
  | .signed n, out => (Decimal.ofInt n.toInt).reverseAux out
  | .double x, out => (doubleText x).reverseAux out
  | .str s, out => (quote s).reverseAux out
  | .arr [], out => (utf8 "[]").reverseAux out
  | .arr (v :: rest), out => 0x5d :: writeItems rest (v.writeOnto (0x5b :: out))
  | .obj [], out => (utf8 "\x7b\x7d").reverseAux out
  | .obj ((key, v) :: rest), out =>
    0x7d :: writeMembers rest (v.writeOnto (0x3a :: (quote key).reverseAux (0x7b :: out)))

/-- Writes further items, each after a comma. -/
def writeItems : List Json → Bytes → Bytes
  | [], out => out
  | v :: rest, out => writeItems rest (v.writeOnto (0x2c :: out))

/-- Writes further members, each after a comma. -/
def writeMembers : List (Bytes × Json) → Bytes → Bytes
  | [], out => out
  | (key, v) :: rest, out =>
    writeMembers rest (v.writeOnto (0x3a :: (quote key).reverseAux (0x2c :: out)))

end

/-- The text of a value. -/
def write (j : Json) : Bytes := (j.writeOnto []).reverse

/-- Whether all text in a value is well-formed. -/
def isText (j : Json) : Bool := j.allText Utf8.valid

/-- The text of a value whose own text is well-formed. -/
def write? (j : Json) : Option Bytes := if j.isText then some j.write else none

mutual

/-- A value with its text repaired. -/
def repair : Json → Json
  | .str s => .str (Utf8.repair s)
  | .arr items => .arr (repairItems items [])
  | .obj members => .obj (repairMembers members [])
  | v => v

/-- Repairs items after those already repaired, which stand in reverse. -/
def repairItems : List Json → List Json → List Json
  | [], done => done.reverse
  | v :: rest, done => repairItems rest (v.repair :: done)

def repairMembers : List (Bytes × Json) → List (Bytes × Json) → List (Bytes × Json)
  | [], done => done.reverse
  | (key, v) :: rest, done => repairMembers rest ((Utf8.repair key, v.repair) :: done)

end

/-- The text of a value, with U+FFFD for what is ill-formed. -/
def writeRepaired (j : Json) : Bytes := j.repair.write

end FleetControl.Json
