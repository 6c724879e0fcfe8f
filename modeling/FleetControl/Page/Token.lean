import FleetControl.Bytes.Base64Url
import FleetControl.Digest.Hmac
import FleetControl.Fault

/-!
# Continue tokens

A token says where a listing goes on: after a key, with a page size.  It is
`base64url(payload) "." base64url(seal)`, where the payload is a version byte, the page size in four
bytes, most significant first, and the key.  A codec accepts only tokens whose seal it made itself,
so a peer can neither read meaning into a token nor forge one.
-/

namespace FleetControl

/-- A place in a listing. -/
structure Position where
  lastKey : Bytes
  limit : UInt32 := 0
  deriving DecidableEq, Repr

/-- A maker of seals of thirty-two bytes. -/
structure Cursor where
  sealOf : Bytes → Bytes
  length_sealOf : ∀ payload, (sealOf payload).length = 32

namespace Cursor

/-- The shortest secret, in bytes. -/
def secretSize : Nat := 16

/-- The longest token that is looked at, in characters. -/
def tokenSize : Nat := 4096

/-- The version of the payload's layout. -/
def version : UInt8 := 1

/-- The codec that seals with a secret. -/
def ofSecret (secret : Bytes) : Except SetupError Cursor :=
  if secret.length < secretSize then .error .shortSecret
  else .ok ⟨Hmac.sign secret, Hmac.length_sign secret⟩

/-- Why a token is refused; the earlier cause wins. -/
inductive Refusal where
  | badLength
  | malformed
  | notBase64
  | badSeal
  | badVersion
  deriving DecidableEq, Repr

def Refusal.reason : Refusal → Bytes
  | .badLength => utf8 "bad length"
  | .malformed => utf8 "malformed"
  | .notBase64 => utf8 "not base64url"
  | .badSeal => utf8 "signature mismatch"
  | .badVersion => utf8 "unsupported version"

def Refusal.fault (r : Refusal) : Fault :=
  .invalidCursor (utf8 "invalid continue token: " ++ r.reason)

def dot : UInt8 := 0x2e

def payload (p : Position) : Bytes := version :: Bytes.ofWord p.limit ++ p.lastKey

/-- The token of a position. -/
def encode (c : Cursor) (p : Position) : Bytes :=
  Base64Url.encode (payload p) ++ dot :: Base64Url.encode (c.sealOf (payload p))

/-- The position that a payload holds. -/
def readPayload : Bytes → Except Refusal Position
  | v :: a :: b :: c :: d :: key =>
    if v = version then .ok ⟨key, Bytes.toWord a b c d⟩ else .error .badVersion
  | _ => .error .badVersion

/-- The two parts of a token with exactly one dot. -/
def split (token : Bytes) : Except Refusal (Bytes × Bytes) :=
  match token.dropWhile (· != dot) with
  | [] => .error .malformed
  | _ :: rest => if rest.contains dot then .error .malformed
    else .ok (token.takeWhile (· != dot), rest)

/-- The position of a token that this codec made. -/
def decode (c : Cursor) (token : Bytes) : Except Refusal Position :=
  if token.isEmpty || tokenSize < token.length then .error .badLength
  else match split token with
    | .error r => .error r
    | .ok (left, right) =>
      match Base64Url.decode left, Base64Url.decode right with
      | .ok body, .ok code =>
        if Bytes.constantTimeEq (c.sealOf body) code then readPayload body else .error .badSeal
      | _, _ => .error .notBase64

end Cursor

end FleetControl
