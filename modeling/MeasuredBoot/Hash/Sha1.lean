import MeasuredBoot.Hash.Padding

/-!
# SHA-1

Five chaining words of 32 bits, blocks of 64 bytes, 80 rounds in four groups of twenty. The digest is
the five words after the last block, so it always has 20 bytes.
-/
namespace MeasuredBoot.Hash.Sha1

/-- The chaining words. -/
structure Words where
  a : UInt32
  b : UInt32
  c : UInt32
  d : UInt32
  e : UInt32

def start : Words := ⟨0x67452301, 0xefcdab89, 0x98badcfe, 0x10325476, 0xc3d2e1f0⟩

/-- Appends `count` words, each from four words before it. -/
def extend : (count : Nat) → Array UInt32 → Array UInt32
  | 0, w => w
  | count + 1, w =>
    let n := w.size
    extend count (w.push (rotateLeft32 (w.getD (n - 3) 0 ^^^ w.getD (n - 8) 0
      ^^^ w.getD (n - 14) 0 ^^^ w.getD (n - 16) 0) 1))

/-- What a round of the given number adds from the middle three words. -/
@[inline] def mixed (i : Nat) (b c d : UInt32) : UInt32 :=
  if i < 20 then ((b &&& c) ||| (~~~b &&& d)) + 0x5a827999
  else if i < 40 then (b ^^^ c ^^^ d) + 0x6ed9eba1
  else if i < 60 then ((b &&& c) ||| (b &&& d) ||| (c &&& d)) + 0x8f1bbcdc
  else (b ^^^ c ^^^ d) + 0xca62c1d6

/-- The last `left` rounds. -/
def rounds (w : Array UInt32) : (left : Nat) → (a b c d e : UInt32) → Words
  | 0, a, b, c, d, e => ⟨a, b, c, d, e⟩
  | left + 1, a, b, c, d, e =>
    let i := 79 - left
    rounds w left (rotateLeft32 a 5 + mixed i b c d + e + w.getD i 0) a (rotateLeft32 b 30) c d

def compress (s : Words) (block : Array UInt32) : Words :=
  let r := rounds (extend 64 block) 80 s.a s.b s.c s.d s.e
  ⟨s.a + r.a, s.b + r.b, s.c + r.c, s.d + r.d, s.e + r.e⟩

/-- The words after `count` blocks of the padded message. -/
def absorb : (count : Nat) → Bytes → Words → Words
  | 0, _, s => s
  | count + 1, message, s =>
    let (block, rest) := words32 16 message (Array.emptyWithCapacity 80)
    absorb count rest (compress s block)

def Words.bytes (s : Words) : Bytes :=
  [s.a, s.b, s.c, s.d, s.e].flatMap fun x => bigEndian 4 x.toNat

def digest (message : Bytes) : Bytes :=
  let padded := pad 64 8 message
  (absorb (padded.length / 64) padded start).bytes

@[simp] theorem length_digest (message : Bytes) : (digest message).length = 20 := by
  simp [digest, Words.bytes]

end MeasuredBoot.Hash.Sha1
