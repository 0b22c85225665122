import MeasuredBoot.Bytes
import MeasuredBoot.Text.Printable
import MeasuredBoot.Text.Radix

/-!
# Quoted text and quoted bytes

A text is written between single quotes, or between double quotes if it holds a single quote and no
double one. Inside, the quote in use and the backslash are written after a backslash, and so are the tab
and the two line ends by their letters; every other character without a glyph is written by its number
in base sixteen. Bytes are written the same way after the letter b, all bytes above the ASCII range by
number.
-/
namespace MeasuredBoot.Text

/-- Digits of a number in base sixteen, zeros in front up to the width. -/
def codeDigits (width n : Nat) : List Char :=
  let digits := Nat.toDigits 16 n
  List.replicate (width - digits.length) '0' ++ digits

/-- The quote for a content with or without single and double quotes. -/
def chooseQuote (hasSingle hasDouble : Bool) : Char :=
  if hasSingle && !hasDouble then '"' else '\''

/-- What every quoted form escapes by a letter or a bare backslash. -/
def shortEscape? (quote c : Char) : Option (List Char) :=
  if c = quote ∨ c = '\\' then some ['\\', c]
  else if c = '\t' then some ['\\', 't']
  else if c = '\n' then some ['\\', 'n']
  else if c = '\r' then some ['\\', 'r']
  else none

/-- The characters that stand for one character of a quoted text. -/
def escapeChar (quote c : Char) : List Char :=
  match shortEscape? quote c with
  | some e => e
  | none =>
    if isPrintable c then [c]
    else if c.toNat ≤ 0xFF then '\\' :: 'x' :: codeDigits 2 c.toNat
    else if c.toNat ≤ 0xFFFF then '\\' :: 'u' :: codeDigits 4 c.toNat
    else '\\' :: 'U' :: codeDigits 8 c.toNat

/-- The characters that stand for one byte of quoted bytes. -/
def escapeByte (quote : Char) (x : UInt8) : List Char :=
  let c := Char.ofNat x.toNat
  match shortEscape? quote c with
  | some e => e
  | none =>
    if 0x20 ≤ x.toNat ∧ x.toNat < 0x7F then [c] else '\\' :: 'x' :: codeDigits 2 x.toNat

def quoted (s : String) : String :=
  let cs := s.toList
  let q := chooseQuote (cs.contains '\'') (cs.contains '"')
  String.ofList (q :: cs.flatMap (escapeChar q) ++ [q])

def quotedBytes (b : Bytes) : String :=
  let q := chooseQuote (b.contains 0x27) (b.contains 0x22)
  String.ofList ('b' :: q :: b.flatMap (escapeByte q) ++ [q])

end MeasuredBoot.Text
