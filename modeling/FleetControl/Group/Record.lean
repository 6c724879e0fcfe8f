import FleetControl.Group.Basic

/-!
# Groups as JSON

`toJson` shows all of a group.  `ofJson` reads only what a client may set, so the conditions and the
lifecycle of a group cannot be given from outside.
-/

namespace FleetControl

def Condition.toJson (kind : ConditionKind) (c : Condition) : Json :=
  .object [
    (utf8 "type", .str kind.name),
    (utf8 "status", .str c.status.name),
    (utf8 "lastTransitionTimeUnixNano", .ofInt64 c.since),
    (utf8 "reason", .str c.reason),
    (utf8 "message", .str c.message)]

namespace Group

/-- The members that only some groups have. -/
def optionalMembers (g : Group) : List (Bytes × Json) :=
  (match g.remoteConfig with
    | none => []
    | some config => [(utf8 "remoteConfig", .object [
        (utf8 "body", .str config.body), (utf8 "contentType", .str config.contentType)])]) ++
  (match g.lifecycle with
    | .active => []
    | .deleted since user =>
      [(utf8 "deletedAtUnixNano", .ofInt64 since), (utf8 "deletedBy", .str user)])

def members (g : Group) : List (Bytes × Json) :=
  [(utf8 "name", .str g.name),
   (utf8 "priority", .ofInt64 g.priority.toInt64),
   (utf8 "attributes", g.attributes.toJson),
   (utf8 "selector", g.selector.toJson),
   (utf8 "conditions", .arr (g.conditions.toList.map fun (kind, c) => c.toJson kind))] ++
  g.optionalMembers

def toJson (g : Group) : Json := .object g.members

/-! ### Reading -/

/-- The priority in a member, zero if it is absent or null. -/
def readPriority (j : Json) : Except Refusal Int32 :=
  match j.given? (utf8 "priority") with
  | none => .ok 0
  | some v =>
    match v.int64? with
    | none => .error .priorityNotInteger
    | some n =>
      if n < 0 || Int32.maxValue.toInt64 < n then .error .priorityOutOfRange else .ok n.toInt32

def readAttributes (parent : Json) (field path : Bytes) : Except Refusal Attributes :=
  (Attributes.read parent field path).mapError .badAttributes

def readSelector (j : Json) : Except Refusal Selector :=
  match j.given? (utf8 "selector") with
  | none => .ok {}
  | some v => do
    if !v.isObject then throw .selectorNotObject
    let identifying ← readAttributes v (utf8 "identifyingAttributes")
      (utf8 "selector.identifyingAttributes")
    let nonIdentifying ← readAttributes v (utf8 "nonIdentifyingAttributes")
      (utf8 "selector.nonIdentifyingAttributes")
    return { identifying, nonIdentifying }

def readRemoteConfig (j : Json) : Except Refusal (Option RemoteConfig) :=
  match j.given? (utf8 "remoteConfig") with
  | none => .ok none
  | some v => do
    if !v.isObject then throw .remoteConfigNotObject
    match (v.get? (utf8 "body")).bind Json.str?, v.given? (utf8 "contentType") with
    | none, _ => throw .bodyNotText
    | some body, none => return some { body }
    | some body, some (.str contentType) => return some { body, contentType }
    | some _, some _ => throw .contentTypeNotText

/-- The group that a client describes: active and without conditions. -/
def ofJson (j : Json) : Except Refusal Group := do
  if !j.isObject then throw .notObject
  match (j.get? (utf8 "name")).bind Json.str? with
  | none => throw .nameNotText
  | some name =>
    let priority ← readPriority j
    let attributes ← readAttributes j (utf8 "attributes") (utf8 "attributes")
    let selector ← readSelector j
    let remoteConfig ← readRemoteConfig j
    return { name, priority, attributes, selector, remoteConfig }

end Group

end FleetControl
