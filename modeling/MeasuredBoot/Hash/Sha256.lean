import MeasuredBoot.Hash.Padding

/-!
# SHA-256

Eight chaining words of 32 bits, blocks of 64 bytes, 64 rounds. The digest is the eight words after the
last block, so it always has 32 bytes.
-/
namespace MeasuredBoot.Hash.Sha256

/-- The chaining words. -/
structure Words where
  a : UInt32
  b : UInt32
  c : UInt32
  d : UInt32
  e : UInt32
  f : UInt32
  g : UInt32
  h : UInt32

def start : Words :=
  ⟨0x6a09e667, 0xbb67ae85, 0x3c6ef372, 0xa54ff53a,
    0x510e527f, 0x9b05688c, 0x1f83d9ab, 0x5be0cd19⟩

def constants : Array UInt32 := #[
  0x428a2f98, 0x71374491, 0xb5c0fbcf, 0xe9b5dba5, 0x3956c25b, 0x59f111f1, 0x923f82a4, 0xab1c5ed5,
  0xd807aa98, 0x12835b01, 0x243185be, 0x550c7dc3, 0x72be5d74, 0x80deb1fe, 0x9bdc06a7, 0xc19bf174,
  0xe49b69c1, 0xefbe4786, 0x0fc19dc6, 0x240ca1cc, 0x2de92c6f, 0x4a7484aa, 0x5cb0a9dc, 0x76f988da,
  0x983e5152, 0xa831c66d, 0xb00327c8, 0xbf597fc7, 0xc6e00bf3, 0xd5a79147, 0x06ca6351, 0x14292967,
  0x27b70a85, 0x2e1b2138, 0x4d2c6dfc, 0x53380d13, 0x650a7354, 0x766a0abb, 0x81c2c92e, 0x92722c85,
  0xa2bfe8a1, 0xa81a664b, 0xc24b8b70, 0xc76c51a3, 0xd192e819, 0xd6990624, 0xf40e3585, 0x106aa070,
  0x19a4c116, 0x1e376c08, 0x2748774c, 0x34b0bcb5, 0x391c0cb3, 0x4ed8aa4a, 0x5b9cca4f, 0x682e6ff3,
  0x748f82ee, 0x78a5636f, 0x84c87814, 0x8cc70208, 0x90befffa, 0xa4506ceb, 0xbef9a3f7, 0xc67178f2]

@[inline] def lowSigma0 (x : UInt32) : UInt32 :=
  rotateRight32 x 7 ^^^ rotateRight32 x 18 ^^^ x >>> 3

@[inline] def lowSigma1 (x : UInt32) : UInt32 :=
  rotateRight32 x 17 ^^^ rotateRight32 x 19 ^^^ x >>> 10

/-- Appends `count` words, each from four words before it. -/
def extend : (count : Nat) → Array UInt32 → Array UInt32
  | 0, w => w
  | count + 1, w =>
    let n := w.size
    extend count (w.push (lowSigma1 (w.getD (n - 2) 0) + w.getD (n - 7) 0
      + lowSigma0 (w.getD (n - 15) 0) + w.getD (n - 16) 0))

/-- The last `left` rounds. -/
def rounds (w : Array UInt32) : (left : Nat) → (a b c d e f g h : UInt32) → Words
  | 0, a, b, c, d, e, f, g, h => ⟨a, b, c, d, e, f, g, h⟩
  | left + 1, a, b, c, d, e, f, g, h =>
    let i := 63 - left
    let t := h + (rotateRight32 e 6 ^^^ rotateRight32 e 11 ^^^ rotateRight32 e 25)
      + ((e &&& f) ^^^ (~~~e &&& g)) + constants.getD i 0 + w.getD i 0
    let u := (rotateRight32 a 2 ^^^ rotateRight32 a 13 ^^^ rotateRight32 a 22)
      + ((a &&& b) ^^^ (a &&& c) ^^^ (b &&& c))
    rounds w left (t + u) a b c (d + t) e f g

def compress (s : Words) (block : Array UInt32) : Words :=
  let r := rounds (extend 48 block) 64 s.a s.b s.c s.d s.e s.f s.g s.h
  ⟨s.a + r.a, s.b + r.b, s.c + r.c, s.d + r.d, s.e + r.e, s.f + r.f, s.g + r.g, s.h + r.h⟩

/-- The words after `count` blocks of the padded message. -/
def absorb : (count : Nat) → Bytes → Words → Words
  | 0, _, s => s
  | count + 1, message, s =>
    let (block, rest) := words32 16 message (Array.emptyWithCapacity 64)
    absorb count rest (compress s block)

def Words.bytes (s : Words) : Bytes :=
  [s.a, s.b, s.c, s.d, s.e, s.f, s.g, s.h].flatMap fun x => bigEndian 4 x.toNat

def digest (message : Bytes) : Bytes :=
  let padded := pad 64 8 message
  (absorb (padded.length / 64) padded start).bytes

@[simp] theorem length_digest (message : Bytes) : (digest message).length = 32 := by
  simp [digest, Words.bytes]

end MeasuredBoot.Hash.Sha256
