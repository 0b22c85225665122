import MeasuredBoot.Fault

/-!
# Journal

What the library tells while it works is a journal: lines of text, each with a level. A journal is shown
from some level upwards, each line after the mark of its level; a text with line feeds is shown on as many
lines.
-/
namespace MeasuredBoot

/-- How important a line is. -/
inductive Level where
  | debug
  | trace
  | verbose
  | info
  | good
  | bad
  | important
  | warning
  | error
  | critical
deriving DecidableEq

namespace Level

/-- All levels, the most detailed first. -/
def all : List Level :=
  [.debug, .trace, .verbose, .info, .good, .bad, .important, .warning, .error, .critical]

def word : Level → String
  | debug => "debug"
  | trace => "trace"
  | verbose => "verbose"
  | info => "info"
  | good => "good"
  | bad => "bad"
  | important => "important"
  | warning => "warning"
  | error => "error"
  | critical => "critical"

def ofWord? (s : String) : Option Level := all.find? (·.word = s)

/-- The rank of the level; a line is shown if its rank is not below the threshold. -/
def rank : Level → Nat
  | debug => 10
  | trace => 11
  | verbose => 13
  | info => 20
  | good => 21
  | bad => 22
  | important => 23
  | warning => 30
  | error => 40
  | critical => 50

/-- What stands in front of a line of the level. -/
def mark : Level → String
  | debug => "[*] [DEBUG] "
  | trace => "[*] [TRACE] "
  | verbose => "[*] [VERBOSE] "
  | good => "[+] "
  | bad => "[-] "
  | important => "[!] "
  | warning => "WARNING: "
  | error => "ERROR: "
  | info | critical => ""

end Level

/-- Which of the three detailed levels are asked for. -/
structure Verbosity where
  verbose : Bool := false
  trace : Bool := false
  debug : Bool := false

/-- The verbosity with just the level of a word on, if that is a detailed level. -/
def Verbosity.ofWord? (s : String) : Option Verbosity :=
  match Level.ofWord? s with
  | some .verbose => some { verbose := true }
  | some .trace => some { trace := true }
  | some .debug => some { debug := true }
  | _ => none

/-- The lowest rank that is shown: that of the most detailed level asked for. -/
def Verbosity.threshold (v : Verbosity) : Nat :=
  if v.debug then Level.debug.rank
  else if v.trace then Level.trace.rank
  else if v.verbose then Level.verbose.rank
  else Level.info.rank

/-- A line with its level. -/
structure JournalLine where
  level : Level
  text : String

def JournalLine.shown (l : JournalLine) : String := l.level.mark ++ l.text

/-- Lines in the order in which they were written. -/
abbrev Journal := Array JournalLine

namespace Journal

/-- The lines from a rank upwards, each after its mark and broken at its line feeds. -/
def shown (j : Journal) (threshold : Nat) : List String :=
  (j.toList.filter fun l => threshold ≤ l.level.rank).flatMap fun l => l.shown.splitOn "\n"

/-- Computations that write a journal and may fail; what was written before a failure stays. -/
abbrev Run := EStateM Fault Journal

def note (level : Level) (text : String) : Run Unit := modify (·.push ⟨level, text⟩)

def append (lines : Journal) : Run Unit := modify (· ++ lines)

end Journal
end MeasuredBoot
