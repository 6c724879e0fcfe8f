import FleetControl.Group.Basic
import FleetControl.Page.Listing

/-!
# The group store

Groups by name, deleted ones included, and a snapshot of those that are not deleted.  The snapshot
is made anew with every change, so that choosing a group never waits for one.
-/

namespace FleetControl

structure GroupStore where
  cursor : Cursor
  groups : Table Group := ∅
  /-- The groups that are not deleted, by name. -/
  snapshot : List Group := []

namespace GroupStore

/-- Why the store refuses. -/
inductive Refusal where
  | invalid (cause : Group.Refusal)
  | createDeleted
  | taken (name : Bytes)
  | notFound (name : Bytes)
  deriving DecidableEq, Repr

def Refusal.fault : Refusal → Fault
  | .invalid cause => cause.fault
  | .createDeleted => .validation (utf8 "cannot create a deleted agent group")
  | .taken name => .alreadyExists (utf8 "agent group " ++ name ++ utf8 " already exists")
  | .notFound name => .notFound (utf8 "agent group " ++ name ++ utf8 " not found")

/-- Keeps changed groups, with a new snapshot. -/
def publish (s : GroupStore) (groups : Table Group) : GroupStore :=
  { s with groups, snapshot := groups.values.filter fun g => !g.isDeleted }

/-- Adds a group under a name that no group has had. -/
def create (s : GroupStore) (g : Group) : Except Refusal (Group × GroupStore) := do
  (g.validate).mapError .invalid
  if g.isDeleted then throw .createDeleted
  if s.groups.contains g.name then throw (.taken g.name)
  return (g, s.publish (s.groups.insert g.name g))

/-- Replaces what a client may set of a group that is not deleted. -/
def update (s : GroupStore) (g : Group) (time : Instant) (user : Bytes) :
    Except Refusal (Group × GroupStore) := do
  (g.validate).mapError .invalid
  match s.groups.get? g.name with
  | none => throw (.notFound g.name)
  | some stored =>
    if stored.isDeleted then throw (.notFound g.name)
    let updated := { stored with
      priority := g.priority
      attributes := g.attributes
      selector := g.selector
      remoteConfig := g.remoteConfig }.stampUpdated time user
    return (updated, s.publish (s.groups.insert g.name updated))

/-- Deletes a group; one that is deleted already stays as it is. -/
def delete (s : GroupStore) (name : Bytes) (time : Instant) (user : Bytes) :
    Except Refusal GroupStore :=
  match s.groups.get? name with
  | none => .error (.notFound name)
  | some g =>
    if g.isDeleted then .ok s
    else .ok (s.publish (s.groups.insert name (g.markDeleted time user)))

/-- A group by its name, deleted or not. -/
def find (s : GroupStore) (name : Bytes) : Except Refusal Group :=
  match s.groups.get? name with
  | some g => .ok g
  | none => .error (.notFound name)

/-- The groups by name, deleted ones only if asked for. -/
def list (s : GroupStore) (request : PageRequest) (includeDeleted : Bool) :
    Except PageRequest.Refusal (Page Group) :=
  paginate Group.name (s.groups.values.filter fun g => includeDeleted || !g.isDeleted) s.cursor
    request

end GroupStore

end FleetControl
