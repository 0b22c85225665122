import MeasuredBoot.Text.Radix
import MeasuredBoot.Bytes

/-!
# Globally unique identifiers

A GUID is a number of 128 bits, written as 32 digits in five groups. The reader is liberal: it drops the
words that may stand in front, surrounding braces and all dashes, and then takes any spelling of a
number in base sixteen that is exactly 32 characters long.
-/
namespace MeasuredBoot

/-- A number of 128 bits. -/
structure Guid where
  value : Nat
deriving DecidableEq

namespace Guid

/-- The digits in groups of eight, four, four, four and twelve. -/
def grouped (ds : List Char) : String :=
  let group (start count : Nat) := String.ofList ((ds.drop start).take count)
  "-".intercalate [group 0 8, group 8 4, group 12 4, group 16 4, group 20 12]

def text (g : Guid) : String := grouped (Text.paddedHex 32 g.value).toList

def lowerText (g : Guid) : String := grouped ((Text.paddedHex 32 g.value).toList.map Char.toLower)

/-- The text without every occurrence of a word, searched from left to right. -/
def without (word : List Char) (s : List Char) : List Char :=
  go s.length s
where
  /-- Looks at no more than `fuel` places. -/
  go : Nat → List Char → List Char
    | 0, rest => rest
    | _, [] => []
    | fuel + 1, c :: rest =>
      if word.isPrefixOf (c :: rest) then go fuel ((c :: rest).drop word.length)
      else c :: go fuel rest

/-- The blanks that may surround a number. -/
def isMargin (c : Char) : Bool :=
  (9 ≤ c.toNat && c.toNat ≤ 13) || c.toNat == 32 || c.toNat == 133 || c.toNat == 160

/-- Reads digits in base sixteen; a single underscore may stand between two digits. -/
def readDigits? (acc : Nat) : List Char → Option Nat
  | [] => some acc
  | '_' :: c :: rest => do
    let d ← Bytes.digitValue? c
    readDigits? (16 * acc + d) rest
  | c :: rest => do
    let d ← Bytes.digitValue? c
    readDigits? (16 * acc + d) rest

/-- Reads an unsigned number: an optional base mark, which an underscore may follow, and digits. -/
def readUnsigned? : List Char → Option Nat
  | [] => none
  | '0' :: x :: rest =>
    if x = 'x' ∨ x = 'X' then
      match rest with
      | [] => none
      | '_' :: [] => none
      | '_' :: '_' :: _ => none
      | '_' :: more => readDigits? 0 more
      | more => readDigits? 0 more
    else readDigits? 0 ('0' :: x :: rest)
  | '_' :: _ => none
  | cs => readDigits? 0 cs

/-- Reads a number that may have a plus sign and blanks around it. -/
def readNumber? (cs : List Char) : Option Nat :=
  let core := (((cs.dropWhile isMargin).reverse).dropWhile isMargin).reverse
  match core with
  | '+' :: rest => readUnsigned? rest
  | rest => readUnsigned? rest

/-- Reads a GUID from any of its spellings. -/
def parse? (s : String) : Option Guid :=
  let bare := without "uuid:".toList (without "urn:".toList s.toList)
  let isBrace (c : Char) : Bool := c = '\x7b' || c = '\x7d'
  let inner := ((bare.dropWhile isBrace).reverse.dropWhile isBrace).reverse
  let digits := inner.filter (· ≠ '-')
  if digits.length = 32 then (readNumber? digits).map Guid.mk else none

end Guid
end MeasuredBoot
