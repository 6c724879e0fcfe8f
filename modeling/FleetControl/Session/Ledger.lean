import FleetControl.Command.Basic
import FleetControl.Message.Basic

/-!
# Delivery ledgers

A ledger says how far one instance has acknowledged its commands: everything up to the watermark,
and some past it.  A reply takes the first commands that are not acknowledged, and the watermark
moves over those at the front that are.
-/

namespace FleetControl

structure Ledger where
  /-- The order key up to which everything is acknowledged; empty before the first. -/
  watermark : Bytes := []
  /-- The order keys past the watermark that are acknowledged. -/
  ahead : Table Unit := ∅
  deriving DecidableEq

namespace Ledger

/-- Records an acknowledgement. -/
def acknowledge (l : Ledger) (key : Bytes) : Ledger :=
  if Bytes.before l.watermark key then { l with ahead := l.ahead.insert key () } else l

def acknowledgeAll (l : Ledger) (keys : List Bytes) : Ledger := keys.foldl acknowledge l

/-- Moves the watermark to a later key. -/
def advance (l : Ledger) (watermark : Bytes) : Ledger :=
  if Bytes.before l.watermark watermark then
    { watermark, ahead := l.ahead.filter fun key _ => Bytes.before watermark key }
  else l

/-- How many commands past the watermark to look at: enough to fill a reply even if all that are
acknowledged come first.  The sum is a word, so a limit near the largest word wraps around. -/
def window (l : Ledger) (most : UInt64) : UInt64 := most + UInt64.ofNat l.ahead.size

/-- What a reply takes from the commands past the watermark. -/
structure Picked where
  commands : List Command
  watermark : Bytes

/-- Goes through commands in order.  `gap` tells whether one was met that is not acknowledged, and
`taken` holds the commands taken so far in reverse. -/
def pickFrom (l : Ledger) (most : Nat) : List Command → Bool → List Command → Bytes → Picked
  | [], _, taken, watermark => ⟨taken.reverse, watermark⟩
  | c :: rest, gap, taken, watermark =>
    if l.ahead.contains c.orderKey then
      l.pickFrom most rest gap taken (if gap then watermark else c.orderKey)
    -- The reply is full.
    else if most ≤ taken.length then ⟨taken.reverse, watermark⟩
    else l.pickFrom most rest true (c :: taken) watermark

/-- The first `most` commands that are not acknowledged, and where the watermark may move to. -/
def pick (l : Ledger) (most : Nat) (pending : List Command) : Picked :=
  l.pickFrom most pending false [] l.watermark

end Ledger

/-- How far an instance has acknowledged its commands. -/
structure Progress where
  watermark : Bytes := []
  ahead : Nat := 0
  deriving DecidableEq, Repr

def Ledger.progress (l : Ledger) : Progress := ⟨l.watermark, l.ahead.size⟩

end FleetControl
