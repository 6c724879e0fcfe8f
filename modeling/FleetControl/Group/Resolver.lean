import FleetControl.Group.Basic

/-!
# Which group an agent belongs to

Of the groups that are not deleted and whose identifying attributes the agent has, the one with the
greatest priority wins, and of those with equal priority the one whose name comes first.
-/

namespace FleetControl.Group

/-- Whether an agent with these identifying attributes is selected. -/
def matchesAgent (g : Group) (attrs : Attributes) : Bool := attrs.includes g.selector.identifying

/-- Whether a group takes part in the choice. -/
def isCandidate (g : Group) (attrs : Attributes) : Bool := !g.isDeleted && g.matchesAgent attrs

/-- Whether a group is preferred to another. -/
def beats (g other : Group) : Bool :=
  other.priority < g.priority || (g.priority == other.priority && Bytes.before g.name other.name)

/-- The better of the best so far and one more group. -/
def better (best : Option Group) (g : Group) : Option Group :=
  match best with
  | none => some g
  | some b => if g.beats b then some g else some b

/-- The group of an agent with these identifying attributes. -/
def resolve (attrs : Attributes) (groups : List Group) : Option Group :=
  groups.foldl (fun best g => if g.isCandidate attrs then better best g else best) none

end FleetControl.Group
