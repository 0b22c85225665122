import MeasuredBoot.Fault

/-!
# The lines of an option file

A file of options holds printable characters, tabs and line ends, after an optional byte order mark. What
follows a number sign at the beginning of a line or after a blank is a comment. A tab may stand in a
comment only.
-/
namespace MeasuredBoot

/-- A line of an option file. -/
structure OptionLine where
  /-- How many blanks stand in front. -/
  indent : Nat
  /-- What is written, without the comment and without blanks around it. -/
  words : List Char
  /-- True if there is a comment. -/
  commented : Bool
  /-- The character that ends the line: a line feed, or a line or paragraph separator. -/
  ending : Char

namespace OptionLine

/-- The characters that may stand in a file. -/
def isAllowed (c : Char) : Bool :=
  let n := c.toNat
  n = 0x09 || n = 0x0A || n = 0x0D || (0x20 ≤ n && n ≤ 0x7E) || n = 0x85
    || (0xA0 ≤ n && n ≠ 0xFFFE && n ≠ 0xFFFF)

/-- The characters up to each line end, and what ends the line; given the characters, in reverse, of the
line that has begun. Returns, alone or with a line feed after them, and next-line characters end a line like
line feeds. -/
def splitFrom (line : List Char) : List Char → List (List Char × Char)
  | [] => [(line.reverse, '\n')]
  | '\r' :: '\n' :: rest => (line.reverse, '\n') :: splitFrom [] rest
  | c :: rest =>
    if c = '\n' ∨ c = '\r' ∨ c = '\x85' then (line.reverse, '\n') :: splitFrom [] rest
    else if c = '\u2028' ∨ c = '\u2029' then (line.reverse, c) :: splitFrom [] rest
    else splitFrom (c :: line) rest

/-- The characters before the comment, and whether there is one; given whether it may begin here. -/
def splitComment (mayBegin : Bool) : List Char → List Char × Bool
  | [] => ([], false)
  | c :: rest =>
    if c = '#' && mayBegin then ([], true)
    else
      let (before, commented) := splitComment (c = ' ') rest
      (c :: before, commented)

/-- Characters without the blanks at their end. -/
def trimEnd (cs : List Char) : List Char := (cs.reverse.dropWhile (· = ' ')).reverse

def read (cs : List Char) (ending : Char) : Except Fault OptionLine :=
  let (before, commented) := splitComment true cs
  if before.contains '\t' then .error (.options .unreadable)
  else .ok {
    indent := (before.takeWhile (· = ' ')).length
    words := trimEnd (before.dropWhile (· = ' '))
    commented
    ending }

def ofText (s : String) : Except Fault (List OptionLine) :=
  let cs := match s.toList with
    | '\uFEFF' :: rest => rest
    | cs => cs
  if cs.all isAllowed then (splitFrom [] cs).mapM fun (line, ending) => read line ending
  else .error (.options .unreadable)

end OptionLine
end MeasuredBoot
