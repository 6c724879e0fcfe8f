import FleetControl.Attributes
import FleetControl.Fault
import FleetControl.Instant

/-!
# Agent groups

A group is a named policy: it selects agents by their attributes and says which configuration they
get.  Its conditions record who created, last updated and deleted it.  A deleted group keeps its
name and its record but selects nobody.
-/

namespace FleetControl

/-- A configuration that a group gives to its agents. -/
structure RemoteConfig where
  body : Bytes
  contentType : Bytes := utf8 "text/yaml"
  deriving DecidableEq, Repr

/-- What happens to a group in its life. -/
inductive ConditionKind where
  | created
  | updated
  | deleted
  deriving DecidableEq, Repr

namespace ConditionKind

def all : List ConditionKind := [.created, .updated, .deleted]

def name : ConditionKind → Bytes
  | .created => utf8 "Created"
  | .updated => utf8 "Updated"
  | .deleted => utf8 "Deleted"

end ConditionKind

/-- Whether a condition holds. -/
inductive Truth where
  | true
  | false
  | unknown
  deriving DecidableEq, Repr

namespace Truth

def all : List Truth := [.true, .false, .unknown]

def name : Truth → Bytes
  | .true => utf8 "True"
  | .false => utf8 "False"
  | .unknown => utf8 "Unknown"

end Truth

/-- A condition: since when, by whom, and in words. -/
structure Condition where
  status : Truth := .unknown
  since : Instant := Instant.epoch
  reason : Bytes := []
  message : Bytes := []
  deriving DecidableEq, Repr

/-- At most one condition of each kind. -/
structure Conditions where
  created : Option Condition := none
  updated : Option Condition := none
  deleted : Option Condition := none
  deriving DecidableEq, Repr

namespace Conditions

/-- The condition of a kind, if there is one. -/
def get? (cs : Conditions) : ConditionKind → Option Condition
  | .created => cs.created
  | .updated => cs.updated
  | .deleted => cs.deleted

/-- Sets the condition of a kind, in place of one that is there. -/
def upsert (cs : Conditions) (kind : ConditionKind) (c : Condition) : Conditions :=
  match kind with
  | .created => { cs with created := some c }
  | .updated => { cs with updated := some c }
  | .deleted => { cs with deleted := some c }

/-- The conditions with their kinds, in the order of kinds. -/
def toList (cs : Conditions) : List (ConditionKind × Condition) :=
  ConditionKind.all.filterMap fun kind => (cs.get? kind).map (kind, ·)

theorem get?_upsert_self (cs : Conditions) (kind : ConditionKind) (c : Condition) :
    (cs.upsert kind c).get? kind = some c := by cases kind <;> rfl

theorem get?_upsert_of_ne {kind other : ConditionKind} (h : other ≠ kind) (cs : Conditions)
    (c : Condition) : (cs.upsert kind c).get? other = cs.get? other := by
  cases kind <;> cases other <;> simp_all [upsert, get?]

end Conditions

/-- Whether a group is in use or was deleted, and then when and by whom. -/
inductive Lifecycle where
  | active
  | deleted (since : Instant) (user : Bytes)
  deriving DecidableEq, Repr

/-- A group of agents: whom it selects, and what they are to run. -/
structure Group where
  name : Bytes
  /-- The higher wins when several groups select an agent. -/
  priority : Int32 := 0
  attributes : Attributes := ∅
  selector : Selector := {}
  remoteConfig : Option RemoteConfig := none
  conditions : Conditions := {}
  lifecycle : Lifecycle := .active
  deriving DecidableEq

namespace Group

/-- Whether the group was deleted; it is kept all the same. -/
def isDeleted (g : Group) : Bool :=
  match g.lifecycle with
  | .active => false
  | .deleted .. => true

/-- Records that the group was created. -/
def stampCreated (g : Group) (time : Instant) (user : Bytes) : Group :=
  { g with conditions :=
    g.conditions.upsert .created ⟨.true, time, user, utf8 "Agent group created"⟩ }

/-- Records that the group was updated. -/
def stampUpdated (g : Group) (time : Instant) (user : Bytes) : Group :=
  { g with conditions :=
    g.conditions.upsert .updated ⟨.true, time, user, utf8 "Agent group updated"⟩ }

/-- Deletes the group.  A group that is deleted already keeps its first stamp. -/
def markDeleted (g : Group) (time : Instant) (user : Bytes) : Group :=
  if g.isDeleted then g
  else { g with
    lifecycle := .deleted time user
    conditions := g.conditions.upsert .deleted ⟨.true, time, user, utf8 "Agent group deleted"⟩ }

/-- The condition that the group was created, if it holds. -/
def creation? (g : Group) : Option Condition := g.conditions.created.filter (·.status == .true)

def createdAt? (g : Group) : Option Instant := g.creation?.map (·.since)

/-- Who created the group; empty if that is not known. -/
def createdBy (g : Group) : Bytes := (g.creation?.map (·.reason)).getD []

def deletedAt? (g : Group) : Option Instant :=
  match g.lifecycle with
  | .active => none
  | .deleted since _ => some since

def deletedBy? (g : Group) : Option Bytes :=
  match g.lifecycle with
  | .active => none
  | .deleted _ user => some user

/-! ### What a group has to be -/

/-- Why something is no group that can be kept. -/
inductive Refusal where
  | notObject
  | nameNotText
  | priorityNotInteger
  | priorityOutOfRange
  | badAttributes (cause : Attributes.Refusal)
  | selectorNotObject
  | remoteConfigNotObject
  | bodyNotText
  | contentTypeNotText
  | nameLength
  | nameCharacter
  | nameEnds
  | negativePriority
  | emptyKey (field : Bytes)
  deriving DecidableEq, Repr

def Refusal.message : Refusal → Bytes
  | .notObject => utf8 "agent group must be a JSON object"
  | .nameNotText => utf8 "name must be a string"
  | .priorityNotInteger => utf8 "priority must be an integer"
  | .priorityOutOfRange => utf8 "priority is out of range"
  | .badAttributes cause => cause.message
  | .selectorNotObject => utf8 "selector must be an object"
  | .remoteConfigNotObject => utf8 "remoteConfig must be an object"
  | .bodyNotText => utf8 "remoteConfig.body must be a string"
  | .contentTypeNotText => utf8 "remoteConfig.contentType must be a string"
  | .nameLength => utf8 "name must be 1-253 characters"
  | .nameCharacter => utf8 "name may only contain lowercase letters, digits, '-' and '.'"
  | .nameEnds => utf8 "name must start and end with a letter or digit"
  | .negativePriority => utf8 "priority must not be negative"
  | .emptyKey field => field ++ utf8 " contains an empty key"

def Refusal.fault (r : Refusal) : Fault := .validation r.message

/-- The longest name. -/
def nameSize : Nat := 253

/-- A lower-case letter or a digit. -/
def isAlphanumeric (b : UInt8) : Bool := (0x61 ≤ b && b ≤ 0x7a) || (0x30 ≤ b && b ≤ 0x39)

def isNameByte (b : UInt8) : Bool := isAlphanumeric b || b == 0x2d || b == 0x2e

/-- A name is short and made of letters, digits and a few marks, with no mark at either end. -/
def checkName (name : Bytes) : Except Refusal Unit :=
  if name.isEmpty || nameSize < name.length then .error .nameLength
  else if !name.all isNameByte then .error .nameCharacter
  else if name.head?.all isAlphanumeric && name.getLast?.all isAlphanumeric then .ok ()
  else .error .nameEnds

/-- No key may be empty. -/
def checkKeys (attrs : Attributes) (field : Bytes) : Except Refusal Unit :=
  if attrs.contains [] then .error (.emptyKey field) else .ok ()

/-- Whether a group can be kept; the first field that is wrong is reported. -/
def validate (g : Group) : Except Refusal Unit := do
  checkName g.name
  if g.priority < 0 then throw .negativePriority
  checkKeys g.selector.identifying (utf8 "selector.identifyingAttributes")
  checkKeys g.selector.nonIdentifying (utf8 "selector.nonIdentifyingAttributes")
  checkKeys g.attributes (utf8 "attributes")

end Group

end FleetControl
