/-!
# Numbers in base ten and sixteen

A number is written with its sign first and, where a width is asked for, zeros between the sign and the
digits until the sign and the digits together have that width. Letters are in upper case.
-/
namespace MeasuredBoot.Text

/-- The digits of `n` in base sixteen, letters in upper case. -/
def hexDigits (n : Nat) : String :=
  String.ofList ((Nat.toDigits 16 n).map Char.toUpper)

/-- The digits of `n` in base sixteen, letters in lower case. -/
def lowerHexDigits (n : Nat) : String := String.ofList (Nat.toDigits 16 n)

/-- Base sixteen with the sign counted in the width. -/
def paddedHex (width : Nat) (x : Int) : String :=
  let sign := if x < 0 then "-" else ""
  let digits := hexDigits x.natAbs
  sign ++ String.ofList (List.replicate (width - sign.length - digits.length) '0') ++ digits

def hex (x : Int) : String := paddedHex 0 x

def decimal (x : Int) : String :=
  if x < 0 then "-" ++ String.ofList (Nat.toDigits 10 x.natAbs)
  else String.ofList (Nat.toDigits 10 x.natAbs)

def truth (b : Bool) : String := if b then "True" else "False"

def missing : String := "None"

/-- The text of a value that may be missing. -/
def optional {α : Type} (text : α → String) : Option α → String
  | none => missing
  | some a => text a

/-- Items between brackets, separated by a comma and a blank. -/
def bracketed (items : List String) : String := "[" ++ ", ".intercalate items ++ "]"

end MeasuredBoot.Text
