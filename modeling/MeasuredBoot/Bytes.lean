/-!
# Byte strings

A byte string is a list of bytes. This module holds the operations which the whole library uses on
them: hexadecimal text, little-endian numbers, and cuts at positions which may be negative.

Statement here: a little-endian number has exactly its width in bytes.
-/
namespace MeasuredBoot

/-- A byte string, first byte first. -/
abbrev Bytes := List UInt8

namespace Bytes

/-- `n` zero bytes. -/
def zeros (n : Nat) : Bytes := List.replicate n 0

/-- The bytes of a text whose characters are all below 256, one byte for each. -/
def ofLatin (s : String) : Bytes := s.toList.map fun c => UInt8.ofNat c.toNat

/-- The text with one character for each byte. -/
def toLatin (b : Bytes) : String := String.ofList (b.map fun x => Char.ofNat x.toNat)

def ofText (s : String) : Bytes := s.toByteArray.data.toList

/-- True if no byte differs from zero; the empty string is all zero. -/
def allZero (b : Bytes) : Bool := b.all (· == 0)

/-- True if `needle` stands somewhere in the bytes. -/
def occursIn (needle : Bytes) : Bytes → Bool
  | [] => needle.isEmpty
  | x :: rest => needle.isPrefixOf (x :: rest) || occursIn needle rest

/-! ## Cuts at signed positions -/

/-- The place of a signed position in a string of `size` bytes: a negative position counts from the
end, and a position outside is moved to the nearer end. -/
def place (size : Nat) (position : Int) : Nat :=
  if position < 0 then (position + size).toNat else min position.toNat size

/-- The bytes from one signed position up to another, empty if they are out of order. -/
def cut (b : Bytes) (start stop : Int) : Bytes :=
  (b.drop (place b.length start)).take (place b.length stop - place b.length start)

/-! ## Hexadecimal text -/

/-- The digit of a value below sixteen, letters in lower case. -/
def lowerDigit (n : Nat) : Char := if n < 10 then Char.ofNat (48 + n) else Char.ofNat (87 + n)

/-- The digit of a value below sixteen, letters in upper case. -/
def upperDigit (n : Nat) : Char := if n < 10 then Char.ofNat (48 + n) else Char.ofNat (55 + n)

/-- Two lower case digits for each byte. -/
def toHex (b : Bytes) : String :=
  String.ofList (b.flatMap fun x => [lowerDigit (x.toNat / 16), lowerDigit (x.toNat % 16)])

/-- Two upper case digits for each byte. -/
def toHexUpper (b : Bytes) : String :=
  String.ofList (b.flatMap fun x => [upperDigit (x.toNat / 16), upperDigit (x.toNat % 16)])

/-- The value of a hexadecimal digit of either case. -/
def digitValue? (c : Char) : Option Nat :=
  if '0' ≤ c ∧ c ≤ '9' then some (c.toNat - 48)
  else if 'a' ≤ c ∧ c ≤ 'f' then some (c.toNat - 87)
  else if 'A' ≤ c ∧ c ≤ 'F' then some (c.toNat - 55)
  else none

def ofHexDigits? : List Char → Option Bytes
  | [] => some []
  | [_] => none
  | hi :: lo :: rest => do
    let h ← digitValue? hi
    let l ← digitValue? lo
    let tail ← ofHexDigits? rest
    return UInt8.ofNat (16 * h + l) :: tail

/-- Reads what `toHex` and `toHexUpper` write. -/
def ofHex? (s : String) : Option Bytes := ofHexDigits? s.toList

/-! ## Little-endian numbers -/

/-- The lowest `width` bytes of `n`, the lowest first; above the highest digit all are zero. -/
def ofNatLE : (width : Nat) → (n : Nat) → Bytes
  | 0, _ => []
  | width + 1, n =>
    if n = 0 then zeros (width + 1) else UInt8.ofNat (n % 256) :: ofNatLE width (n / 256)

/-- The number whose lowest byte stands first. -/
def toNatLE : Bytes → Nat
  | [] => 0
  | x :: rest => x.toNat + 256 * toNatLE rest

@[simp] theorem length_zeros (n : Nat) : (zeros n).length = n := List.length_replicate

theorem ofNatLE_zero (width : Nat) : ofNatLE width 0 = zeros width := by
  cases width <;> simp [ofNatLE, zeros]

theorem ofNatLE_succ (width n : Nat) :
    ofNatLE (width + 1) n = UInt8.ofNat (n % 256) :: ofNatLE width (n / 256) := by
  by_cases h : n = 0
  · simp [h, ofNatLE_zero, zeros, List.replicate_succ]
  · simp [ofNatLE, h]

@[simp] theorem length_ofNatLE (width n : Nat) : (ofNatLE width n).length = width := by
  induction width generalizing n with
  | zero => rfl
  | succ w ih => simp [ofNatLE_succ, ih]

end Bytes
end MeasuredBoot
