import FleetControl.Number.Double
import FleetControl.Table

/-!
# JSON values

Strings are bytes, so a value may hold text that is not well-formed; a writer decides what becomes
of it.  A number keeps how it was written: a whole number without a minus sign, one with it (zero
included), or a double.  The members of an object are in key order.
-/

namespace FleetControl

inductive Json where
  | null
  | bool (b : Bool)
  | unsigned (n : UInt64)
  | signed (n : Int64)
  | double (x : Double)
  | str (s : Bytes)
  | arr (items : List Json)
  | obj (members : List (Bytes × Json))
  deriving Inhabited, Repr

namespace Json

/-- An object with the given members, the last of equal keys staying. -/
def object (members : List (Bytes × Json)) : Json := .obj (Entries.ofList members)

def ofNat (n : Nat) : Json := .unsigned (UInt64.ofNat n)

/-- A whole number, with a minus sign only if it is negative. -/
def ofInt64 (n : Int64) : Json := if n < 0 then .signed n else .unsigned n.toUInt64

/-- The text of a value that may be absent, else null. -/
def ofText? (s : Option Bytes) : Json := s.elim .null .str

def isNull : Json → Bool
  | .null => true
  | _ => false

def isObject : Json → Bool
  | .obj _ => true
  | _ => false

def str? : Json → Option Bytes
  | .str s => some s
  | _ => none

def items? : Json → Option (List Json)
  | .arr items => some items
  | _ => none

def members? : Json → Option (List (Bytes × Json))
  | .obj members => some members
  | _ => none

/-- A number without minus sign, point or exponent. -/
def unsigned? : Json → Option UInt64
  | .unsigned n => some n
  | _ => none

/-- A whole number as a signed word; one past the largest word keeps its low bits. -/
def int64? : Json → Option Int64
  | .unsigned n => some n.toInt64
  | .signed n => some n
  | _ => none

/-- A member of an object. -/
def get? (j : Json) (key : Bytes) : Option Json :=
  match j with
  | .obj members => members.lookup key
  | _ => none

/-- A member of an object that is there and not null. -/
def given? (j : Json) (key : Bytes) : Option Json := (j.get? key).filter fun v => !v.isNull

mutual

/-- Whether every text in a value, keys included, satisfies a test. -/
def allText (test : Bytes → Bool) : Json → Bool
  | .str s => test s
  | .arr items => allItems test items
  | .obj members => allMembers test members
  | _ => true

def allItems (test : Bytes → Bool) : List Json → Bool
  | [] => true
  | v :: rest => v.allText test && allItems test rest

def allMembers (test : Bytes → Bool) : List (Bytes × Json) → Bool
  | [] => true
  | (key, v) :: rest => test key && (v.allText test && allMembers test rest)

end

end Json

end FleetControl
