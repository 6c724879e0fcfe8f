import FleetControl.Page.Token

/-!
# Listing in pages

Every listing takes a page size and a token and answers with the items after the token's key, how
many more there are, and a token to go on with while there are any.
-/

namespace FleetControl

/-- What a client asks of a listing.  A size of zero takes the token's, or everything without a
token; an empty token asks for the first page. -/
structure PageRequest where
  limit : Int := 0
  token : Bytes := []
  deriving DecidableEq, Repr

/-- A part of a listing.  The token is empty on the last page. -/
structure Page (α : Type) where
  items : List α
  token : Bytes := []
  remaining : Nat := 0
  deriving DecidableEq, Repr

def Page.map {α β : Type} (f : α → β) (p : Page α) : Page β := ⟨p.items.map f, p.token, p.remaining⟩

namespace PageRequest

/-- Why a request is refused. -/
inductive Refusal where
  | negativeLimit
  | largeLimit
  | badToken (cause : Cursor.Refusal)
  deriving DecidableEq, Repr

def Refusal.fault : Refusal → Fault
  | .negativeLimit => .validation (utf8 "limit must not be negative")
  | .largeLimit => .validation (utf8 "limit is too large")
  | .badToken cause => cause.fault

/-- The page size asked for, as a word. -/
def size (r : PageRequest) : Except Refusal UInt32 :=
  if r.limit < 0 then .error .negativeLimit
  else if UInt32.size ≤ r.limit then .error .largeLimit
  else .ok (UInt32.ofNat r.limit.toNat)

/-- Where the page starts, if not at the beginning, and its size. -/
def resolve (r : PageRequest) (cursor : Cursor) : Except Refusal (Option Bytes × UInt32) := do
  let size ← r.size
  if r.token.isEmpty then return (none, size)
  match cursor.decode r.token with
  | .error cause => throw (.badToken cause)
  | .ok position => return (some position.lastKey, if size = 0 then position.limit else size)

end PageRequest

/-- The first place among `count` places from `first` on at which `past` holds, found by halving;
`past` has to hold from some place on. -/
def bisect (past : Nat → Bool) (first count : Nat) : Nat :=
  if count = 0 then first
  else
    let half := count / 2
    if past (first + half) then bisect past first half
    else bisect past (first + half + 1) (count - half - 1)
termination_by count
decreasing_by all_goals omega

/-- The number of items whose key is not past `key`, in a list that ascends by key. -/
def countUpTo {α : Type} (key : α → Bytes) (sorted : List α) (last : Bytes) : Nat :=
  let items := sorted.toArray
  bisect (fun i => items[i]?.any fun x => Bytes.before last (key x)) 0 items.size

/-- The page that a request asks for of a list that ascends by key. -/
def paginate {α : Type} (key : α → Bytes) (sorted : List α) (cursor : Cursor) (r : PageRequest) :
    Except PageRequest.Refusal (Page α) := do
  let (start, size) ← r.resolve cursor
  let available := match start with
    | none => sorted
    | some last => sorted.drop (countUpTo key sorted last)
  let items := if size = 0 then available else available.take size.toNat
  let remaining := available.length - items.length
  let token := match items.getLast? with
    | some last => if 0 < remaining then cursor.encode ⟨key last, size⟩ else []
    | none => []
  return ⟨items, token, remaining⟩

end FleetControl
