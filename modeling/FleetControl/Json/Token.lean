import FleetControl.Bytes.Utf8
import FleetControl.Json.Value

/-!
# JSON tokens

The scanner reads one byte at a time and keeps the tokens it has completed.  It follows the
grammar strictly: no raw control byte in a text, no surrogate without its other half, no text that
is ill-formed, no leading zeros and no bare points in numbers.  A scanner that meets a fault is
stuck, and the tokens in front of the fault stay.
-/

namespace FleetControl.Json

/-- A piece of JSON text.  A `word` is null or a truth value, and a `number` is still as written. -/
inductive Token where
  | openArray
  | closeArray
  | openObject
  | closeObject
  | comma
  | colon
  | text (s : Bytes)
  | word (value : Json)
  | number (literal : Bytes)
  deriving Inhabited, Repr

/-! ### Numbers -/

/-- How far the reading of a number has come. -/
inductive Phase where
  | minus
  | zero
  | whole
  | point
  | fraction
  | exponent
  | exponentSign
  | exponentDigits
  deriving DecidableEq, Repr

/-- The phase after one more byte, if the byte can belong to the number. -/
def Phase.next (p : Phase) (b : UInt8) : Option Phase :=
  let digit := Decimal.isDigit b
  let e := b == 0x65 || b == 0x45
  match p with
  | .minus => if b = 0x30 then some .zero else if digit then some .whole else none
  | .zero => if b = 0x2e then some .point else if e then some .exponent else none
  | .whole =>
    if digit then some .whole
    else if b = 0x2e then some .point
    else if e then some .exponent
    else none
  | .point => if digit then some .fraction else none
  | .fraction => if digit then some .fraction else if e then some .exponent else none
  | .exponent =>
    if digit then some .exponentDigits
    else if b = 0x2b ∨ b = 0x2d then some .exponentSign
    else none
  | .exponentSign => if digit then some .exponentDigits else none
  | .exponentDigits => if digit then some .exponentDigits else none

/-- Whether a number may end in this phase. -/
def Phase.isEnd : Phase → Bool
  | .zero | .whole | .fraction | .exponentDigits => true
  | _ => false

/-! ### The scanner -/

/-- What the scanner is in the middle of.  Text already read stands in reverse. -/
inductive Mode where
  | blank
  | word (rest : Bytes) (value : Json)
  | number (phase : Phase) (read : Bytes)
  | text (read : Bytes)
  | escape (read : Bytes)
  | unit (read : Bytes) (high : Option Nat) (left value : Nat)
  | afterHigh (read : Bytes) (high : Nat)
  | afterHighEscape (read : Bytes) (high : Nat)
  | stuck

/-- The mode and the tokens completed, which stand in reverse. -/
structure Scanner where
  mode : Mode
  tokens : List Token

namespace Scanner

def start : Scanner := ⟨.blank, []⟩

/-- The mode after a byte between tokens that completes no token. -/
def beginMode (b : UInt8) : Mode :=
  if b = 0x20 ∨ b = 0x09 ∨ b = 0x0a ∨ b = 0x0d then .blank
  else if b = 0x22 then .text []
  else if b = 0x2d then .number .minus [b]
  else if b = 0x30 then .number .zero [b]
  else if Decimal.isDigit b then .number .whole [b]
  else if b = 0x74 then .word (utf8 "rue") (.bool true)
  else if b = 0x66 then .word (utf8 "alse") (.bool false)
  else if b = 0x6e then .word (utf8 "ull") .null
  else .stuck

/-- The token that a byte is on its own. -/
def mark? (b : UInt8) : Option Token :=
  if b = 0x2c then some .comma
  else if b = 0x3a then some .colon
  else if b = 0x7b then some .openObject
  else if b = 0x7d then some .closeObject
  else if b = 0x5b then some .openArray
  else if b = 0x5d then some .closeArray
  else none

/-- A byte between tokens. -/
def begin (tokens : List Token) (b : UInt8) : Scanner :=
  match mark? b with
  | some mark => ⟨.blank, mark :: tokens⟩
  | none => ⟨beginMode b, tokens⟩

/-- The byte that a backslash and a letter stand for. -/
def unescape (b : UInt8) : Option UInt8 :=
  if b = 0x22 ∨ b = 0x5c ∨ b = 0x2f then some b
  else if b = 0x62 then some 0x08
  else if b = 0x66 then some 0x0c
  else if b = 0x6e then some 0x0a
  else if b = 0x72 then some 0x0d
  else if b = 0x74 then some 0x09
  else none

def hexValue (b : UInt8) : Option Nat :=
  if 0x30 ≤ b ∧ b ≤ 0x39 then some (b.toNat - 0x30)
  else if 0x61 ≤ b ∧ b ≤ 0x66 then some (b.toNat - 0x57)
  else if 0x41 ≤ b ∧ b ≤ 0x46 then some (b.toNat - 0x37)
  else none

/-- What follows a complete unit of four digits: a character, or the wait for its other half. -/
def closeUnit (read : Bytes) (high : Option Nat) (unit : Nat) : Mode :=
  match high with
  | some h =>
    if 0xdc00 ≤ unit ∧ unit ≤ 0xdfff then
      let codePoint := 0x10000 + (h - 0xd800) * 0x400 + (unit - 0xdc00)
      .text ((Utf8.encode codePoint).reverseAux read)
    else .stuck
  | none =>
    if 0xd800 ≤ unit ∧ unit ≤ 0xdbff then .afterHigh read unit
    else if 0xdc00 ≤ unit ∧ unit ≤ 0xdfff then .stuck
    else .text ((Utf8.encode unit).reverseAux read)

def step (s : Scanner) (b : UInt8) : Scanner :=
  match s.mode with
  | .stuck => s
  | .blank => begin s.tokens b
  | .word [] _ => { s with mode := .stuck }
  | .word (c :: rest) value =>
    if b ≠ c then { s with mode := .stuck }
    else if rest.isEmpty then ⟨.blank, .word value :: s.tokens⟩
    else { s with mode := .word rest value }
  | .number phase read =>
    match phase.next b with
    | some phase => { s with mode := .number phase (b :: read) }
    | none =>
      if phase.isEnd then begin (.number read.reverse :: s.tokens) b
      else { s with mode := .stuck }
  | .text read =>
    if b = 0x22 then
      let text := read.reverse
      if Utf8.valid text then ⟨.blank, .text text :: s.tokens⟩ else { s with mode := .stuck }
    else if b = 0x5c then { s with mode := .escape read }
    else if b < 0x20 then { s with mode := .stuck }
    else { s with mode := .text (b :: read) }
  | .escape read =>
    if b = 0x75 then { s with mode := .unit read none 4 0 }
    else match unescape b with
      | some c => { s with mode := .text (c :: read) }
      | none => { s with mode := .stuck }
  | .unit read high left value =>
    match hexValue b with
    | none => { s with mode := .stuck }
    | some v =>
      let value := 16 * value + v
      if 1 < left then { s with mode := .unit read high (left - 1) value }
      else { s with mode := closeUnit read high value }
  | .afterHigh read high =>
    { s with mode := if b = 0x5c then .afterHighEscape read high else .stuck }
  | .afterHighEscape read high =>
    { s with mode := if b = 0x75 then .unit read (some high) 4 0 else .stuck }

end Scanner

/-- The tokens of a text up to its end or its first fault, and whether it is whole: without a fault
and without an open token at its end. -/
structure Scan where
  tokens : List Token
  whole : Bool

/-- What a scanner has found when the text ends. -/
def Scanner.finish (s : Scanner) : Scan :=
  match s.mode with
  | .blank => ⟨s.tokens.reverse, true⟩
  | .number phase read =>
    if phase.isEnd then ⟨(.number read.reverse :: s.tokens).reverse, true⟩
    else ⟨s.tokens.reverse, false⟩
  | _ => ⟨s.tokens.reverse, false⟩

def scan (text : Bytes) : Scan := (text.foldl Scanner.step Scanner.start).finish

end FleetControl.Json
