/-
# The digest SHA-256

The message is padded to whole blocks of 64 bytes: a byte `80`, zeros, and the
length in bits as eight bytes, most significant first.  Each block in turn is
mixed into a state of eight words by 64 rounds.  A round takes its word from a
window of sixteen words that starts as the block and moves on by one word:
the word that enters is made of four that are in the window.
-/

import LightWire.Hash

namespace LightWire
namespace Sha256

/-- One constant for each round: the first 32 bits of the fractional parts of
the cube roots of the first 64 primes. -/
def roundConstants : List UInt32 :=
  [0x428a2f98, 0x71374491, 0xb5c0fbcf, 0xe9b5dba5, 0x3956c25b, 0x59f111f1, 0x923f82a4, 0xab1c5ed5,
   0xd807aa98, 0x12835b01, 0x243185be, 0x550c7dc3, 0x72be5d74, 0x80deb1fe, 0x9bdc06a7, 0xc19bf174,
   0xe49b69c1, 0xefbe4786, 0x0fc19dc6, 0x240ca1cc, 0x2de92c6f, 0x4a7484aa, 0x5cb0a9dc, 0x76f988da,
   0x983e5152, 0xa831c66d, 0xb00327c8, 0xbf597fc7, 0xc6e00bf3, 0xd5a79147, 0x06ca6351, 0x14292967,
   0x27b70a85, 0x2e1b2138, 0x4d2c6dfc, 0x53380d13, 0x650a7354, 0x766a0abb, 0x81c2c92e, 0x92722c85,
   0xa2bfe8a1, 0xa81a664b, 0xc24b8b70, 0xc76c51a3, 0xd192e819, 0xd6990624, 0xf40e3585, 0x106aa070,
   0x19a4c116, 0x1e376c08, 0x2748774c, 0x34b0bcb5, 0x391c0cb3, 0x4ed8aa4a, 0x5b9cca4f, 0x682e6ff3,
   0x748f82ee, 0x78a5636f, 0x84c87814, 0x8cc70208, 0x90befffa, 0xa4506ceb, 0xbef9a3f7, 0xc67178f2]

/-- The eight words that blocks are mixed into. -/
structure State where
  a : UInt32
  b : UInt32
  c : UInt32
  d : UInt32
  e : UInt32
  f : UInt32
  g : UInt32
  h : UInt32

/-- The state before the first block: the first 32 bits of the fractional parts
of the square roots of the first eight primes. -/
def State.start : State :=
  ⟨0x6a09e667, 0xbb67ae85, 0x3c6ef372, 0xa54ff53a, 0x510e527f, 0x9b05688c, 0x1f83d9ab, 0x5be0cd19⟩

/-- Rotation to the right by `n` bits, `0 < n < 32`. -/
def rotate (n x : UInt32) : UInt32 := (x >>> n) ||| (x <<< (32 - n))

/-- The word that enters a window. -/
def nextWord (w : Vector UInt32 16) : UInt32 :=
  let s0 := rotate 7 w[1] ^^^ rotate 18 w[1] ^^^ (w[1] >>> 3)
  let s1 := rotate 17 w[14] ^^^ rotate 19 w[14] ^^^ (w[14] >>> 10)
  w[0] + s0 + w[9] + s1

/-- The window one word further on. -/
def slide (w : Vector UInt32 16) : Vector UInt32 16 := w.tail.push (nextWord w)

/-- One round, with the word `w` and the constant `k`. -/
def round (s : State) (w k : UInt32) : State :=
  let s1 := rotate 6 s.e ^^^ rotate 11 s.e ^^^ rotate 25 s.e
  let choice := (s.e &&& s.f) ^^^ (~~~s.e &&& s.g)
  let t1 := s.h + s1 + choice + k + w
  let s0 := rotate 2 s.a ^^^ rotate 13 s.a ^^^ rotate 22 s.a
  let majority := (s.a &&& s.b) ^^^ (s.a &&& s.c) ^^^ (s.b &&& s.c)
  ⟨t1 + (s0 + majority), s.a, s.b, s.c, s.d + t1, s.e, s.f, s.g⟩

/-- The rounds with the given constants. -/
def rounds : List UInt32 → Vector UInt32 16 → State → State
  | [], _, s => s
  | k :: ks, w, s => rounds ks (slide w) (round s w[0] k)

/-- Mixes a block into the state. -/
def mix (s : State) (block : Vector UInt32 16) : State :=
  let t := rounds roundConstants block s
  ⟨s.a + t.a, s.b + t.b, s.c + t.c, s.d + t.d, s.e + t.e, s.f + t.f, s.g + t.g, s.h + t.h⟩

/-- The word of four bytes, most significant first. -/
def word (a b c d : UInt8) : UInt32 :=
  (a.toUInt32 <<< 24) ||| (b.toUInt32 <<< 16) ||| (c.toUInt32 <<< 8) ||| d.toUInt32

/-- The words of a byte string; up to three bytes at the end make none. -/
def words : Bytes → List UInt32
  | a :: b :: c :: d :: rest => word a b c d :: words rest
  | _ => []

/-- Mixes the first `n` blocks of sixteen words into the state. -/
def mixAll : (n : Nat) → List UInt32 → State → State
  | 0, _, s => s
  | n + 1, ws, s =>
    mixAll n (ws.drop 16) (mix s (Vector.ofFn fun i => ws.getD i.val 0))

/-- The message in whole blocks of 64 bytes. -/
def pad (message : Bytes) : Bytes :=
  let zeros := (119 - message.length % 64) % 64
  message ++ 0x80 :: (List.replicate zeros 0 ++
    (Bytes.littleEndian 8 (8 * message.length)).reverse)

/-- The four bytes of a word, most significant first. -/
def wordBytes (x : UInt32) : Vector UInt8 4 :=
  #v[(x >>> 24).toUInt8, (x >>> 16).toUInt8, (x >>> 8).toUInt8, x.toUInt8]

/-- The 32 bytes of a state. -/
def State.bytes (s : State) : Vector UInt8 32 :=
  wordBytes s.a ++ wordBytes s.b ++ wordBytes s.c ++ wordBytes s.d ++
    wordBytes s.e ++ wordBytes s.f ++ wordBytes s.g ++ wordBytes s.h

/-- The digest of a message. -/
def digest : Digest := fun message =>
  let padded := pad message
  ⟨(mixAll (padded.length / 64) (words padded) State.start).bytes⟩

end Sha256
end LightWire
