import FleetControl.Bytes

/-!
# UTF-8

A machine that reads one byte at a time says which byte strings are well-formed: overlong forms,
surrogates and values past U+10FFFF are refused at the first byte that rules them out.  `repair`
runs the same machine and puts U+FFFD in place of every longest beginning of a character that
cannot be completed, and of every byte that cannot begin one.
-/

namespace FleetControl.Utf8

/-- Where a reader stands: between characters, or inside one with the range of the next byte and
the number of plain continuation bytes owed after it. -/
inductive State where
  | start
  | inside (lo hi : UInt8) (owed : Nat)
  deriving DecidableEq, Repr

/-- The state after the first byte of a character. -/
def first (b : UInt8) : Option State :=
  if b < 0x80 then some .start
  else if b < 0xc2 then none
  else if b < 0xe0 then some (.inside 0x80 0xbf 0)
  else if b = 0xe0 then some (.inside 0xa0 0xbf 1)
  else if b = 0xed then some (.inside 0x80 0x9f 1)
  else if b < 0xf0 then some (.inside 0x80 0xbf 1)
  else if b = 0xf0 then some (.inside 0x90 0xbf 2)
  else if b < 0xf4 then some (.inside 0x80 0xbf 2)
  else if b = 0xf4 then some (.inside 0x80 0x8f 2)
  else none

def next : State → UInt8 → Option State
  | .start, b => first b
  | .inside lo hi owed, b =>
    if lo ≤ b ∧ b ≤ hi then
      match owed with
      | 0 => some .start
      | n + 1 => some (.inside 0x80 0xbf n)
    else none

/-- Whether the rest of a text completes what the state has begun. -/
def completes : State → Bytes → Bool
  | s, [] => s == .start
  | s, b :: rest =>
    match next s b with
    | some s' => completes s' rest
    | none => false

/-- Whether the bytes are well-formed UTF-8. -/
def valid (text : Bytes) : Bool := completes .start text

/-- U+FFFD. -/
def replacement : Bytes := [0xef, 0xbf, 0xbd]

/-- Puts a replacement character onto output that stands in reverse. -/
def replaceOnto (out : Bytes) : Bytes := 0xbd :: 0xbf :: 0xef :: out

/-- Rewrites the rest of a text.  `begun` holds the bytes of the character that the state is in,
and `out` what is written; both stand in reverse. -/
def repairOnto : State → Bytes → Bytes → Bytes → Bytes
  | s, [], _, out => if s = .start then out else replaceOnto out
  | s, b :: rest, begun, out =>
    match next s b with
    | some .start => repairOnto .start rest [] (b :: (begun ++ out))
    | some s' => repairOnto s' rest (b :: begun) out
    | none =>
      if s = .start then repairOnto .start rest [] (replaceOnto out)
      else match first b with
        | some .start => repairOnto .start rest [] (b :: replaceOnto out)
        | some s' => repairOnto s' rest [b] (replaceOnto out)
        | none => repairOnto .start rest [] (replaceOnto (replaceOnto out))

/-- The text with U+FFFD for what is ill-formed. -/
def repair (text : Bytes) : Bytes := (repairOnto .start text [] []).reverse

/-- The bytes of a character by its number. -/
def encode (scalar : Nat) : Bytes := String.utf8EncodeChar (Char.ofNat scalar)

theorem completes_append {s : State} {a b : Bytes} (h : completes s a = true)
    (hb : valid b = true) : completes s (a ++ b) = true := by
  induction a generalizing s with
  | nil => cases s <;> simp_all [completes, valid]
  | cons x xs ih =>
    simp only [List.cons_append, completes] at h ⊢
    split at h <;> simp_all

/-- Well-formed texts put one after the other are well-formed. -/
theorem valid_append {a b : Bytes} (ha : valid a = true) (hb : valid b = true) :
    valid (a ++ b) = true := completes_append ha hb

theorem repairOnto_of_completes {s : State} {text begun out : Bytes}
    (h : completes s text = true) (hs : s = .start → begun = []) :
    repairOnto s text begun out = text.reverse ++ begun ++ out := by
  induction text generalizing s begun out with
  | nil => cases s <;> simp_all [completes, repairOnto]
  | cons b rest ih =>
    simp only [completes] at h
    rw [repairOnto]
    split
    · rename_i he; rw [he] at h; simp [ih h (fun _ => rfl)]
    · rename_i s' hne he; rw [he] at h; simp [ih h (fun e => absurd e (by simpa using hne))]
    · rename_i he; rw [he] at h; exact absurd h (by simp)

/-- A well-formed text needs no repair. -/
theorem repair_of_valid {text : Bytes} (h : valid text = true) : repair text = text := by
  simp [repair, repairOnto_of_completes h (fun _ => rfl)]

end FleetControl.Utf8
