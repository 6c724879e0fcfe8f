import FleetControl.Digest.Sha256

/-!
# HMAC-SHA-256

The keyed hash over blocks of sixty-four bytes.  A longer key is hashed first and a shorter one is
filled with zeros, so a key is always one whole block.
-/

namespace FleetControl.Hmac

/-- The key as one whole block. -/
def blockKey (key : Bytes) : Bytes :=
  let short := if key.length > 64 then Sha256.digest key else key
  short ++ List.replicate (64 - short.length) 0

/-- The authentication code of a message under a key. -/
def sign (key message : Bytes) : Bytes :=
  let block := blockKey key
  Sha256.digest (block.map (· ^^^ 0x5c) ++ Sha256.digest (block.map (· ^^^ 0x36) ++ message))

@[simp] theorem length_sign (key message : Bytes) : (sign key message).length = 32 := by
  simp [sign]

end FleetControl.Hmac
