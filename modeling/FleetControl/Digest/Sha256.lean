import FleetControl.Bytes

/-!
# SHA-256

The 256-bit hash.  The message schedule is a window of sixteen words that slides one word a
round, so no table of sixty-four words is kept.  `length_digest` is the one law that others use:
a digest has thirty-two bytes.
-/

namespace FleetControl.Sha256

/-- The eight chaining words. -/
structure State where
  a : UInt32
  b : UInt32
  c : UInt32
  d : UInt32
  e : UInt32
  f : UInt32
  g : UInt32
  h : UInt32
  deriving DecidableEq, Repr

/-- The first thirty-two fractional bits of the square roots of the first eight primes. -/
def initial : State :=
  ⟨0x6a09e667, 0xbb67ae85, 0x3c6ef372, 0xa54ff53a, 0x510e527f, 0x9b05688c, 0x1f83d9ab, 0x5be0cd19⟩

/-- The first thirty-two fractional bits of the cube roots of the first sixty-four primes. -/
def roundWords : List UInt32 := [
  0x428a2f98, 0x71374491, 0xb5c0fbcf, 0xe9b5dba5, 0x3956c25b, 0x59f111f1, 0x923f82a4, 0xab1c5ed5,
  0xd807aa98, 0x12835b01, 0x243185be, 0x550c7dc3, 0x72be5d74, 0x80deb1fe, 0x9bdc06a7, 0xc19bf174,
  0xe49b69c1, 0xefbe4786, 0x0fc19dc6, 0x240ca1cc, 0x2de92c6f, 0x4a7484aa, 0x5cb0a9dc, 0x76f988da,
  0x983e5152, 0xa831c66d, 0xb00327c8, 0xbf597fc7, 0xc6e00bf3, 0xd5a79147, 0x06ca6351, 0x14292967,
  0x27b70a85, 0x2e1b2138, 0x4d2c6dfc, 0x53380d13, 0x650a7354, 0x766a0abb, 0x81c2c92e, 0x92722c85,
  0xa2bfe8a1, 0xa81a664b, 0xc24b8b70, 0xc76c51a3, 0xd192e819, 0xd6990624, 0xf40e3585, 0x106aa070,
  0x19a4c116, 0x1e376c08, 0x2748774c, 0x34b0bcb5, 0x391c0cb3, 0x4ed8aa4a, 0x5b9cca4f, 0x682e6ff3,
  0x748f82ee, 0x78a5636f, 0x84c87814, 0x8cc70208, 0x90befffa, 0xa4506ceb, 0xbef9a3f7, 0xc67178f2]

def rotateRight (w : UInt32) (n : UInt32) : UInt32 := (w >>> n) ||| (w <<< (32 - n))

/-- One round with the schedule word `w` and the round constant `k`. -/
def round (s : State) (k w : UInt32) : State :=
  let big₁ := rotateRight s.e 6 ^^^ rotateRight s.e 11 ^^^ rotateRight s.e 25
  let choice := (s.e &&& s.f) ^^^ (~~~s.e &&& s.g)
  let t₁ := s.h + big₁ + choice + k + w
  let big₀ := rotateRight s.a 2 ^^^ rotateRight s.a 13 ^^^ rotateRight s.a 22
  let majority := (s.a &&& s.b) ^^^ (s.a &&& s.c) ^^^ (s.b &&& s.c)
  ⟨t₁ + (big₀ + majority), s.a, s.b, s.c, s.d + t₁, s.e, s.f, s.g⟩

/-- Drops the oldest word of the window and puts the word sixteen places on at its end. -/
def slide (window : List UInt32) : List UInt32 :=
  let w₁ := window.getD 1 0
  let w₁₄ := window.getD 14 0
  let small₀ := rotateRight w₁ 7 ^^^ rotateRight w₁ 18 ^^^ (w₁ >>> 3)
  let small₁ := rotateRight w₁₄ 17 ^^^ rotateRight w₁₄ 19 ^^^ (w₁₄ >>> 10)
  window.tail ++ [small₁ + window.getD 9 0 + small₀ + window.headD 0]

def State.add (s t : State) : State :=
  ⟨s.a + t.a, s.b + t.b, s.c + t.c, s.d + t.d, s.e + t.e, s.f + t.f, s.g + t.g, s.h + t.h⟩

/-- Mixes one block, given as sixteen words, into the state. -/
def compress (s : State) (block : List UInt32) : State :=
  let mixed := roundWords.foldl
    (fun (t, window) k => (round t k (window.headD 0), slide window)) (s, block)
  s.add mixed.1

/-- Groups bytes four by four into words. -/
def words : Bytes → List UInt32
  | a :: b :: c :: d :: rest => Bytes.toWord a b c d :: words rest
  | _ => []

/-- Mixes the next `count` blocks of sixty-four bytes into the state. -/
def absorb : Nat → State → Bytes → State
  | 0, s, _ => s
  | count + 1, s, text => absorb count (compress s (words (text.take 64))) (text.drop 64)

/-- The bytes that fill a message up to whole blocks: a set bit, zeros, and the length in bits. -/
def padding (length : Nat) : Bytes :=
  let bits := UInt64.ofNat (8 * length)
  -- The set bit and the length take nine bytes of the last block.
  0x80 :: List.replicate ((119 - length % 64) % 64) (0 : UInt8) ++
    Bytes.ofWord (bits >>> 32).toUInt32 ++ Bytes.ofWord bits.toUInt32

def State.toBytes (s : State) : Bytes :=
  Bytes.ofWord s.a ++ Bytes.ofWord s.b ++ Bytes.ofWord s.c ++ Bytes.ofWord s.d ++
    Bytes.ofWord s.e ++ Bytes.ofWord s.f ++ Bytes.ofWord s.g ++ Bytes.ofWord s.h

/-- The hash of a message. -/
def digest (message : Bytes) : Bytes :=
  (absorb ((message.length + 72) / 64) initial (message ++ padding message.length)).toBytes

@[simp] theorem length_toBytes (s : State) : s.toBytes.length = 32 := rfl

@[simp] theorem length_digest (message : Bytes) : (digest message).length = 32 := rfl

end FleetControl.Sha256
