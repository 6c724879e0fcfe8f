import FleetControl.Json.Value

/-!
# Attributes

Agents describe themselves with named texts, and groups select agents by them.
-/

namespace FleetControl

/-- Named texts. -/
abbrev Attributes := Table Bytes

namespace Attributes

/-- Why a value is no set of attributes.  `path` is where the value stands. -/
inductive Refusal where
  | notObject (path : Bytes)
  | notText (path key : Bytes)
  deriving DecidableEq, Repr

def Refusal.message : Refusal → Bytes
  | .notObject path => path ++ utf8 " must be an object"
  | .notText path key => path ++ utf8 "." ++ key ++ utf8 " must be a string"

/-- The attributes in the members of an object. -/
def ofMembers (path : Bytes) (members : List (Bytes × Json)) : Except Refusal Attributes := do
  let entries ← members.mapM fun (key, v) =>
    match v.str? with
    | some s => .ok (key, s)
    | none => .error (Refusal.notText path key)
  return Table.ofList entries

/-- The attributes in a member of an object; none if it is absent or null. -/
def read (parent : Json) (field path : Bytes) : Except Refusal Attributes :=
  match parent.given? field with
  | none => .ok ∅
  | some (.obj members) => ofMembers path members
  | some _ => .error (.notObject path)

def toJson (attrs : Attributes) : Json := .obj (attrs.toList.map fun (key, s) => (key, .str s))

/-- Whether every attribute of `want` is in `attrs` with the same text. -/
def includes (attrs want : Attributes) : Bool :=
  want.toList.all fun (key, s) => attrs.get? key == some s

end Attributes

/-- How an agent describes itself. -/
structure Description where
  identifying : Attributes := ∅
  nonIdentifying : Attributes := ∅
  deriving DecidableEq

/-- Attributes that an agent has to have to be selected. -/
structure Selector where
  identifying : Attributes := ∅
  nonIdentifying : Attributes := ∅
  deriving DecidableEq

/-- The two sets of attributes as one object. -/
def Attributes.pairToJson (identifying nonIdentifying : Attributes) : Json :=
  .object [(utf8 "identifyingAttributes", identifying.toJson),
    (utf8 "nonIdentifyingAttributes", nonIdentifying.toJson)]

def Description.toJson (d : Description) : Json :=
  Attributes.pairToJson d.identifying d.nonIdentifying

def Selector.toJson (s : Selector) : Json := Attributes.pairToJson s.identifying s.nonIdentifying

/-- Whether an agent has every attribute that the selector asks for, of both sorts. -/
def Selector.accepts (s : Selector) (d : Description) : Bool :=
  d.identifying.includes s.identifying && d.nonIdentifying.includes s.nonIdentifying

end FleetControl
