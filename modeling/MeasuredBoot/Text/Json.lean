import MeasuredBoot.Text.Quoted

/-!
# JSON documents

A document keeps the members of an object in the order in which they were given. It is printed either on
one line or with one item to a line, indented by a number of blanks for each level. Characters outside
ASCII are written by number, those above the first plane as two numbers.
-/
namespace MeasuredBoot.Text

/-- A document without fractions. -/
inductive Json where
  | null
  | bool (b : Bool)
  | int (n : Int)
  | str (s : String)
  | list (items : List Json)
  | object (members : List (String × Json))
deriving Inhabited

namespace Json

/-- The document of a value, or the null document. -/
def ofOption {α : Type} (document : α → Json) : Option α → Json
  | none => null
  | some a => document a

/-- A text, or the null document. -/
def ofText? : Option String → Json := ofOption str

/-- The list of the documents of values. -/
def ofList {α : Type} (document : α → Json) (items : List α) : Json := list (items.map document)

def ofTexts : List String → Json := ofList str

/-- One number of a character, after a backslash. -/
def unit (n : Nat) : List Char := '\\' :: 'u' :: codeDigits 4 n

/-- The characters that stand for one character of a string. -/
def escape (c : Char) : List Char :=
  if c = '"' ∨ c = '\\' then ['\\', c]
  else if c = '\n' then ['\\', 'n']
  else if c = '\r' then ['\\', 'r']
  else if c = '\t' then ['\\', 't']
  else if c.toNat = 8 then ['\\', 'b']
  else if c.toNat = 12 then ['\\', 'f']
  else if 0x20 ≤ c.toNat ∧ c.toNat < 0x7F then [c]
  else if c.toNat < 0x10000 then unit c.toNat
  else unit (0xD800 + (c.toNat - 0x10000) / 0x400) ++ unit (0xDC00 + (c.toNat - 0x10000) % 0x400)

def quote (s : String) : String :=
  String.ofList ('"' :: s.toList.flatMap escape ++ ['"'])

/-- Where lines are broken: nowhere, or before each item with so many blanks for each level. -/
structure Layout where
  indent : Option Nat

namespace Layout

def comma (l : Layout) : String := if l.indent.isSome then "," else ", "

/-- The line break before an item at the given level. -/
def breakLine (l : Layout) (level : Nat) : String :=
  match l.indent with
  | none => ""
  | some n => "\n" ++ String.ofList (List.replicate (n * level) ' ')

/-- Items between two brackets at the given level; without items the brackets touch. -/
def surround (l : Layout) (level : Nat) (opening closing : String) (items : List String) : String :=
  if items.isEmpty then opening ++ closing
  else opening ++ l.breakLine (level + 1)
    ++ (l.comma ++ l.breakLine (level + 1)).intercalate items ++ l.breakLine level ++ closing

end Layout

mutual

/-- The text of a document whose first line stands at the given level. -/
def print (l : Layout) (level : Nat) : Json → String
  | null => "null"
  | bool b => if b then "true" else "false"
  | int n => decimal n
  | str s => quote s
  | list items => l.surround level "[" "]" (printItems l (level + 1) items)
  | object members => l.surround level "\x7b" "\x7d" (printMembers l (level + 1) members)

/-- The texts of the items of a list. -/
def printItems (l : Layout) (level : Nat) : List Json → List String
  | [] => []
  | j :: rest => print l level j :: printItems l level rest

/-- The texts of the members of an object. -/
def printMembers (l : Layout) (level : Nat) : List (String × Json) → List String
  | [] => []
  | (key, j) :: rest => (quote key ++ ": " ++ print l level j) :: printMembers l level rest

end

def render (indent : Option Nat) (j : Json) : String := print ⟨indent⟩ 0 j

end Json
end MeasuredBoot.Text
