import MeasuredBoot.Bytes

/-!
# Padding of a message to whole blocks

The message is followed by the byte 80, by the fewest zeros that leave room for the length field, and by
the number of its bits as a big-endian number. Every hash of this library reads its blocks from such a
padded message.
-/
namespace MeasuredBoot.Hash

/-- The lowest `width` bytes of `n`, the highest first. -/
def bigEndian (width n : Nat) : Bytes := (Bytes.ofNatLE width n).reverse

/-- How many zeros stand between the delimiter and the length field. -/
def paddingZeros (block field size : Nat) : Nat :=
  (block - (size + 1 + field) % block) % block

/-- The message with its delimiter, zeros and length in bits. -/
def pad (block field : Nat) (message : Bytes) : Bytes :=
  message ++ 0x80 :: Bytes.zeros (paddingZeros block field message.length)
    ++ bigEndian field (8 * message.length)

@[simp] theorem length_bigEndian (width n : Nat) : (bigEndian width n).length = width := by
  simp [bigEndian]

theorem length_pad (block field : Nat) (message : Bytes) :
    (pad block field message).length
      = message.length + 1 + paddingZeros block field message.length + field := by
  simp [pad]; omega

/-- Reads `count` big-endian words of four bytes. -/
def words32 : (count : Nat) → Bytes → Array UInt32 → Array UInt32 × Bytes
  | count + 1, a :: b :: c :: d :: rest, acc =>
    words32 count rest
      (acc.push (a.toUInt32 <<< 24 ||| b.toUInt32 <<< 16 ||| c.toUInt32 <<< 8 ||| d.toUInt32))
  | _, rest, acc => (acc, rest)

/-- Reads `count` big-endian words of eight bytes. -/
def words64 : (count : Nat) → Bytes → Array UInt64 → Array UInt64 × Bytes
  | count + 1, a :: b :: c :: d :: e :: f :: g :: h :: rest, acc =>
    words64 count rest
      (acc.push (a.toUInt64 <<< 56 ||| b.toUInt64 <<< 48 ||| c.toUInt64 <<< 40 ||| d.toUInt64 <<< 32
        ||| e.toUInt64 <<< 24 ||| f.toUInt64 <<< 16 ||| g.toUInt64 <<< 8 ||| h.toUInt64))
  | _, rest, acc => (acc, rest)

/-- Rotation of a word of 32 bits to the left. -/
@[inline] def rotateLeft32 (x : UInt32) (n : UInt32) : UInt32 := x <<< n ||| x >>> (32 - n)

/-- Rotation of a word of 32 bits to the right. -/
@[inline] def rotateRight32 (x : UInt32) (n : UInt32) : UInt32 := x >>> n ||| x <<< (32 - n)

/-- Rotation of a word of 64 bits to the right. -/
@[inline] def rotateRight64 (x : UInt64) (n : UInt64) : UInt64 := x >>> n ||| x <<< (64 - n)

end MeasuredBoot.Hash
