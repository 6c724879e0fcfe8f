import FleetControl.Json.Literal
import FleetControl.Json.Token

/-!
# Reading JSON

A reader takes one token at a time and keeps the arrays and objects that are still open on a
stack, so nesting has no limit.  `Json.parse` is the whole way from bytes to a value: the text ends
at its first zero byte, one byte order mark in front is skipped, and of equal keys in an object the
last stays.  Of several faults in a text the first is the one that it is refused for.
-/

namespace FleetControl.Json

/-- Why a text is no JSON. -/
inductive Refusal where
  | malformed
  /-- A number where a value may stand is past the largest double. -/
  | tooLarge
  deriving DecidableEq, Repr

/-- An array or object that is still open, with what it holds already, last first. -/
inductive Frame where
  | array (before : List Json)
  | object (before : List (Bytes × Json)) (name : Bytes)

/-- What a reader waits for. -/
inductive Reader where
  | value (stack : List Frame)
  | itemOrEnd (stack : List Frame)
  | keyOrEnd (stack : List Frame)
  | key (before : List (Bytes × Json)) (stack : List Frame)
  | colon (before : List (Bytes × Json)) (name : Bytes) (stack : List Frame)
  | afterItem (items : List Json) (stack : List Frame)
  | afterMember (members : List (Bytes × Json)) (stack : List Frame)
  | done (value : Json)

namespace Reader

/-- Puts a complete value into the innermost open frame. -/
def give (v : Json) : List Frame → Reader
  | [] => .done v
  | .array before :: stack => .afterItem (v :: before) stack
  | .object before name :: stack => .afterMember ((name, v) :: before) stack

/-- A token that begins a value. -/
def beginValue (stack : List Frame) : Token → Except Refusal Reader
  | .openArray => .ok (.itemOrEnd stack)
  | .openObject => .ok (.keyOrEnd stack)
  | .text s => .ok (give (.str s) stack)
  | .word v => .ok (give v stack)
  | .number literal =>
    match ofLiteral literal with
    | some v => .ok (give v stack)
    | none => .error .tooLarge
  | _ => .error .malformed

def step : Reader → Token → Except Refusal Reader
  | .value stack, t => beginValue stack t
  | .itemOrEnd stack, .closeArray => .ok (give (.arr []) stack)
  | .itemOrEnd stack, t => beginValue (.array [] :: stack) t
  | .keyOrEnd stack, .closeObject => .ok (give (.obj []) stack)
  | .keyOrEnd stack, .text name => .ok (.colon [] name stack)
  | .key before stack, .text name => .ok (.colon before name stack)
  | .colon before name stack, .colon => .ok (.value (.object before name :: stack))
  | .afterItem items stack, .comma => .ok (.value (.array items :: stack))
  | .afterItem items stack, .closeArray => .ok (give (.arr items.reverse) stack)
  | .afterMember members stack, .comma => .ok (.key members stack)
  | .afterMember members stack, .closeObject => .ok (give (object members.reverse) stack)
  | _, _ => .error .malformed

end Reader

/-- The value that the tokens of a text spell.  A fault among the tokens comes before the fault that
ends them. -/
def ofScan (scan : Scan) : Except Refusal Json :=
  match scan.tokens.foldlM Reader.step (.value []) with
  | .error cause => .error cause
  | .ok (.done v) => if scan.whole then .ok v else .error .malformed
  | .ok _ => .error .malformed

/-- Drops a byte order mark in front. -/
def dropMark : Bytes → Bytes
  | 0xef :: 0xbb :: 0xbf :: rest => rest
  | text => text

/-- The value of a JSON text.  A zero byte ends the text, and whatever follows it is not looked at;
inside a string it leaves the string open, which is refused. -/
def parse (text : Bytes) : Except Refusal Json :=
  ofScan (scan (dropMark (Bytes.untilZero text)))

/-- The value of a JSON text, whatever a refusal is for. -/
def parse? (text : Bytes) : Option Json := (parse text).toOption

end FleetControl.Json
