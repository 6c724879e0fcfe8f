/-!
# Points of time

Times are whole nanoseconds in a signed 64-bit word, which wraps.  A clock never shows a time before
one it has shown, whatever the wall time does.
-/

namespace FleetControl

/-- Nanoseconds since the beginning of 1970. -/
abbrev Instant := Int64

namespace Instant

def epoch : Instant := 0

/-- The later of two times. -/
def later (a b : Instant) : Instant := if a < b then b else a

end Instant

/-- A clock, by the latest time it has shown. -/
structure Clock where
  latest : Instant := Instant.epoch
  deriving DecidableEq, Repr

namespace Clock

/-- The time shown when the wall time is `wall`, and the clock afterwards. -/
def read (c : Clock) (wall : Instant) : Instant × Clock :=
  let shown := c.latest.later wall
  (shown, ⟨shown⟩)

end Clock

end FleetControl
