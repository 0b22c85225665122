import MeasuredBoot.Journal

/-!
# Console

Lines are written to a console or, after a log file was opened, to that file instead. A terminal shows
each line in the colour of its level. If another log file cannot be opened while one is open, lines go
nowhere until the console is restored.
-/
namespace MeasuredBoot

/-- The number of the terminal colour of a level. -/
def Level.colour : Level → Nat
  | .trace | .verbose => 90
  | .bad | .error => 91
  | .good => 92
  | .warning => 93
  | .debug => 94
  | .critical => 95
  | .important => 96
  | .info => 97

/-- Where lines go. -/
inductive Sink where
  | console
  | file
  | nowhere
deriving DecidableEq

/-- What was written so far, and how to go on. -/
structure Console where
  /-- True for a terminal whose user wants colours. -/
  coloured : Bool
  verbosity : Verbosity := {}
  sink : Sink := .console
  console : String := ""
  file : String := ""

namespace Console

/-- Sets a number of the terminal, between escape and letter. -/
def escape (n : Nat) : String := "\x1b[" ++ Text.decimal n ++ "m"

/-- A line between its colour and the end of the colour. -/
def paint (l : JournalLine) : String := escape l.level.colour ++ l.shown ++ escape 0

/-- Writes a line unless its level is below the threshold. -/
def write (c : Console) (l : JournalLine) : Console :=
  if l.level.rank < c.verbosity.threshold then c
  else
    match c.sink with
    | .console => { c with console := c.console ++ (if c.coloured then paint l else l.shown) ++ "\n" }
    | .file => { c with file := c.file ++ l.shown ++ "\n" }
    | .nowhere => c

/-- Closes the log file, if one is open, and writes to the console. -/
def restore (c : Console) : Console := { c with sink := .console }

/-- Writes to the log file from here on. -/
def openFile (c : Console) : Console := { c with sink := .file }

/-- What happens if a log file cannot be opened: the open one is closed, and a warning is written. A name
with a null character is refused. -/
def failToOpen (c : Console) (name : String) : Except Fault Console :=
  let closed := { c with sink := if c.sink = Sink.file then .nowhere else c.sink }
  if name.toList.contains '\x00' then .error (.argument .nullInPath)
  else .ok (closed.write ⟨.warning, "Could not open log file: " ++ name⟩)

end Console
end MeasuredBoot
