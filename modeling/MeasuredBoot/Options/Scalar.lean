import MeasuredBoot.Fault
import MeasuredBoot.Text.Json

/-!
# Option values

An option, its name and the name of a section are written without quotes. Words decide whether a value is
missing or a truth value; a number may be written in base two, eight, ten, sixteen or sixty, with
underscores between its digits; everything else is a text. Two words are reserved.
-/
namespace MeasuredBoot

/-- The value of an option, or the name of an option or section. -/
inductive OptionValue where
  | null
  | flag (b : Bool)
  | number (n : Int)
  | text (s : String)
deriving DecidableEq

namespace OptionValue

def document : OptionValue → Text.Json
  | null => .null
  | flag b => .bool b
  | number n => .int n
  | text s => .str s

/-- The value as the name of a member of a document. -/
def name : OptionValue → String
  | null => "null"
  | flag b => if b then "true" else "false"
  | number n => Text.decimal n
  | text s => s

/-- Truth values count as the numbers one and zero. -/
def number? : OptionValue → Option Int
  | flag b => some (if b then 1 else 0)
  | number n => some n
  | null | text _ => none

/-- True of names for the same thing: equal ones, and a truth value and the number for which it counts. -/
def isSame (v w : OptionValue) : Bool := v = w || (v.number?.isSome && v.number? = w.number?)

/-- A value counts as true unless it is missing, false, zero or empty. -/
def toFlag : OptionValue → Bool
  | null => false
  | flag b => b
  | number n => n ≠ 0
  | text s => !s.isEmpty

/-- The name of the value's type. -/
def typeName : OptionValue → String
  | null => "NoneType"
  | flag _ => "bool"
  | number _ => "int"
  | text _ => "str"

def nullWords : List String := ["", "~", "null", "Null", "NULL"]

def affirmations : List String := ["yes", "Yes", "YES", "true", "True", "TRUE", "on", "On", "ON"]

def negations : List String := ["no", "No", "NO", "false", "False", "FALSE", "off", "Off", "OFF"]

/-- The word that names what another table gives. -/
def mergeWord : String := "<<"

/-- The words that stand for no value. -/
def reservedWords : List String := ["=", mergeWord]

/-- The most digits of a number in base ten that are read. -/
def maxDigits : Nat := 4300

/-- The value of a digit of a base up to sixteen. -/
def digit? (base : Nat) (c : Char) : Option Nat :=
  let v :=
    if '0' ≤ c ∧ c ≤ '9' then c.toNat - 48
    else if 'a' ≤ c ∧ c ≤ 'f' then c.toNat - 87
    else if 'A' ≤ c ∧ c ≤ 'F' then c.toNat - 55
    else base
  if v < base then some v else none

/-- The number with the given digits; underscores do not count. -/
def digits? (base : Nat) (cs : List Char) : Option Nat :=
  (cs.filter (· ≠ '_')).foldlM (fun n c => (digit? base c).map (base * n + ·)) 0

def sixtieth? (cs : List Char) : Option Nat :=
  match cs with
  | [c] => digit? 10 c
  | [c, d] => do return 10 * (← digit? 6 c) + (← digit? 10 d)
  | _ => none

/-- A number in base ten, or in base sixty with colons between its places. -/
def positional? (cs : List Char) : Option Nat := do
  match cs.splitOn ':' with
  | [] => none
  | first :: places =>
    places.foldlM (fun n place => (sixtieth? place).map (60 * n + ·)) (← digits? 10 first)

/-- A number without a sign: its first characters tell the base. -/
def unsigned? : List Char → Option Nat
  | '0' :: 'b' :: c :: rest => digits? 2 (c :: rest)
  | '0' :: 'x' :: c :: rest => digits? 16 (c :: rest)
  | '0' :: rest => digits? 8 rest
  | c :: rest => if '1' ≤ c ∧ c ≤ '9' then positional? (c :: rest) else none
  | [] => none

/-- The characters after a sign, if there is one. -/
def withoutSign : List Char → List Char
  | '-' :: rest | '+' :: rest => rest
  | cs => cs

def signed? (cs : List Char) : Option Int :=
  (unsigned? (withoutSign cs)).map fun n => if cs.head? = some '-' then -n else n

/-- True of the digits of a number that is not read: a base without a digit after it, or too many digits
in base ten. -/
def isVain : List Char → Bool
  | '0' :: 'b' :: rest | '0' :: 'x' :: rest => rest.all (· = '_')
  | '0' :: _ => false
  | cs => maxDigits < ((cs.takeWhile (· ≠ ':')).filter (· ≠ '_')).length

/-- The value which a word stands for. -/
def ofWord (s : String) : Except Fault OptionValue :=
  if nullWords.contains s then .ok null
  else if affirmations.contains s then .ok (flag true)
  else if negations.contains s then .ok (flag false)
  else if reservedWords.contains s then .error (.options .unreadable)
  else
    match signed? s.toList with
    | some n => if isVain (withoutSign s.toList) then .error (.argument .notANumber) else .ok (number n)
    | none => .ok (text s)

/-- The name which a word stands for; the sign of equality is a name. -/
def ofName (s : String) : Except Fault OptionValue := if s = "=" then .ok (text s) else ofWord s

end OptionValue
end MeasuredBoot
