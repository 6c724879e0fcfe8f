import FleetControl.Bytes

/-!
# Lines

A text is cut at its line feeds into complete lines and a torn rest that no line feed ends.
`joined_complete` says that nothing is lost: the lines, each with its line feed, and the rest are
the text.
-/

namespace FleetControl.Lines

def lineFeed : UInt8 := 0x0a

/-- Complete lines without their line feeds, and what comes after the last of them. -/
structure Cut where
  complete : List Bytes
  torn : Bytes
  deriving DecidableEq, Repr

/-- Cuts the rest of a text.  The line that is being read and the lines before it stand in
reverse. -/
def cutOnto : Bytes → Bytes → List Bytes → Cut
  | [], line, done => ⟨done.reverse, line.reverse⟩
  | b :: rest, line, done =>
    if b = lineFeed then cutOnto rest [] (line.reverse :: done) else cutOnto rest (b :: line) done

def cut (text : Bytes) : Cut := cutOnto text [] []

/-- Lines with a line feed after each. -/
def join (lines : List Bytes) : Bytes := lines.flatMap (· ++ [lineFeed])

theorem join_append (as bs : List Bytes) : join (as ++ bs) = join as ++ join bs := by
  simp [join]

theorem joined_cutOnto (text line : Bytes) (done : List Bytes) :
    join (cutOnto text line done).complete ++ (cutOnto text line done).torn =
      join done.reverse ++ line.reverse ++ text := by
  induction text generalizing line done with
  | nil => simp [cutOnto]
  | cons b rest ih =>
    rw [cutOnto]
    split
    · rename_i h; rw [ih]; simp [join, h]
    · rw [ih]; simp

/-- Lines and rest together are the text. -/
theorem joined_complete (text : Bytes) : join (cut text).complete ++ (cut text).torn = text := by
  rw [cut, joined_cutOnto]; rfl

/-- The text up to its last line feed, which is looked for from the end. -/
def whole (text : Bytes) : Bytes := (text.reverse.dropWhile (· != lineFeed)).reverse

end FleetControl.Lines
