import MeasuredBoot.Options.Line

/-!
# The outline of an option file

The lines of a file are joined to entries: a name, a colon and a text. The text may begin on the next line
and go on over further lines, as long as these are indented deeper than the name; a comment ends it. An
entry without a text, and deeper entries after it that are indented alike, are a table. A file may also
hold a text alone. Nothing is said here of what a text stands for.
-/
namespace MeasuredBoot

/-- A name with the text after it; a text that stands alone has no name. -/
structure OptionEntry where
  indent : Nat
  name : Option String
  text : List Char := []
  /-- True as long as the next line may go on with the text. -/
  isOpen : Bool := true
  /-- What has ended the lines since the last words. -/
  breaks : List Char := []

namespace OptionEntry

/-- The characters before the first colon that ends a name, and those after it. -/
def splitName : List Char → Option (List Char × List Char)
  | [] => none
  | [c] => if c = ':' then some ([], []) else none
  | c :: d :: rest =>
    if c = ':' && d = ' ' then some ([], d :: rest)
    else (splitName (d :: rest)).map fun (name, value) => (c :: name, value)

/-- Characters with which no plain text begins. -/
def indicators : List Char :=
  [',', '[', ']', '\x7b', '\x7d', '#', '&', '*', '!', '|', '>', '\'', '"', '%', '@', '\x60']

/-- Characters with which a plain text begins only when another character follows directly. -/
def markers : List Char := ['-', '?', ':']

/-- True of characters with which a name or a text may begin: no indicator in front, and no marker that
stands alone. -/
def beginsPlain : List Char → Bool
  | [] => true
  | [c] => !indicators.contains c && !markers.contains c
  | c :: d :: _ => !indicators.contains c && !(markers.contains c && d = ' ')

/-- True of the characters of a plain text, in which no colon ends a name. -/
def isPlain (cs : List Char) : Bool := beginsPlain cs && (splitName cs).isNone

/-- The most characters before the colon of a name. -/
def maxNameLength : Nat := 1024

/-- What stands for line ends between the words of a text: a blank for a single line feed; otherwise all of
them but a line feed in front. -/
def fold : List Char → List Char
  | [] => []
  | b :: more => (if b ≠ '\n' then [b] else if more.isEmpty then [' '] else []) ++ more

/-- The entry whose text goes on with the words of a line. -/
def extend (e : OptionEntry) (l : OptionLine) : OptionEntry :=
  { e with
    text := e.text ++ fold e.breaks ++ l.words
    isOpen := !l.commented
    breaks := [l.ending] }

/-- The entry that begins with a line; without a name it can only be the text that stands alone. -/
def begin? (l : OptionLine) (mayStandAlone : Bool) : Except Fault OptionEntry :=
  match splitName l.words with
  | some (before, after) =>
    let name := OptionLine.trimEnd before
    let text := after.dropWhile (· = ' ')
    if beginsPlain l.words && before.length ≤ maxNameLength && isPlain text then
      .ok ⟨l.indent, some (String.ofList name), text, !l.commented, [l.ending]⟩
    else .error (.options .unreadable)
  | none =>
    if mayStandAlone && isPlain l.words then .ok ⟨l.indent, none, l.words, !l.commented, [l.ending]⟩
    else .error (.options .unreadable)

/-- True of a line that belongs to the text of an entry by its indentation. -/
def covers (e : OptionEntry) (l : OptionLine) : Bool := e.name.isNone || e.indent < l.indent

/-- Three dashes or dots that stand alone at the beginning of a line end a document. -/
def isMarker (l : OptionLine) : Bool :=
  l.indent = 0 && ["---".toList, "...".toList].contains (l.words.takeWhile (· ≠ ' '))

/-- Adds a line to entries in reverse. -/
def addLine (known : List OptionEntry) (l : OptionLine) : Except Fault (List OptionEntry) :=
  if isMarker l then .error (.options .unreadable)
  else
    match known with
    | [] => if l.words.isEmpty then .ok [] else do return [← begin? l true]
    | e :: rest =>
      if l.words.isEmpty then
        .ok ({ e with isOpen := e.isOpen && !l.commented, breaks := e.breaks ++ [l.ending] } :: rest)
      else if e.text.isEmpty then
        if e.covers l && isPlain l.words then .ok ({ e with breaks := [] }.extend l :: rest)
        else do return (← begin? l false) :: known
      else if e.isOpen && e.covers l then
        if (splitName l.words).isSome then .error (.options .unreadable) else .ok (e.extend l :: rest)
      else do return (← begin? l false) :: known

/-- The entries of a file in order. -/
def ofText (s : String) : Except Fault (List OptionEntry) := do
  return (← (← OptionLine.ofText s).foldlM addLine []).reverse

end OptionEntry
end MeasuredBoot
