import MeasuredBoot.EventLog.Reported
import MeasuredBoot.Reproduce.Traced

/-!
# Reconciled entries

What became of an entry of a simulated log and of an event of a reported one: both stand side by side, or
one of them stands alone. A list of reconciled entries can be turned back into an event log and into
commands.
-/
namespace MeasuredBoot

/-- A simulated entry and a reported event, or one of them alone. -/
inductive Reconciled where
  | matched (c : TracedEntry) (e : ReportedEvent)
  | mismatched (c : TracedEntry) (e : ReportedEvent)
  | unexpected (e : ReportedEvent)
  | missing (c : TracedEntry)

namespace Reconciled

def verdict : Reconciled → String
  | matched .. => "MATCH"
  | mismatched .. => "MISMATCH"
  | unexpected _ => "UNEXPECTED"
  | missing _ => "MISSING"

def calculated? : Reconciled → Option TracedEntry
  | matched c _ | mismatched c _ | missing c => some c
  | unexpected _ => none

def expected? : Reconciled → Option ReportedEvent
  | matched _ e | mismatched _ e | unexpected e => some e
  | missing _ => none

def measurement? (r : Reconciled) : Option Evidence := r.calculated?.bind TracedEntry.measurement

def place? (r : Reconciled) : Option Coordinates := r.calculated?.bind TracedEntry.place

def text (r : Reconciled) : String :=
  "ReproduceEventLogEntry(" ++ r.verdict
    ++ ", calculated=" ++ Text.optional (fun c => c.entry.text) r.calculated?
    ++ ", expected=" ++ Text.optional ReportedEvent.text r.expected? ++ ")"

def document (r : Reconciled) : Text.Json := .object [
  ("repr", .str r.text),
  ("status", .str r.verdict),
  ("measurement", .ofText? (r.measurement?.map (Evidence.text Evidence.measuredKind))),
  ("coordinates", .ofText? (r.place?.map Coordinates.text))]

/-- The reported event of an entry that does not match. -/
def surplus? : Reconciled → Option ReportedEvent
  | mismatched _ e | unexpected e => some e
  | _ => none

/-- The simulated entry, and the reported one where it differs. -/
def entries (r : Reconciled) : List EventEntry :=
  (r.calculated?.map TracedEntry.entry).toList ++ (r.surplus?.bind ReportedEvent.entry?).toList

/-- The command that has the effect of an entry: an event without digest and action stands for the
start of the TPM at the locality in its data, any other for an extend. -/
def effect (e : EventEntry) : Command :=
  if e.pcr ≠ 0 ∨ e.type ≠ .noAction ∨ !e.digest.allZero then .ofEvent e
  else
    match Locality.decode (e.data.getD []) with
    | .ok x => .init x.toNat
    | .error _ => .init 0

/-- The commands which log an entry, with their cause. -/
def commandsOf (place : Option Coordinates) (action : Option IssuedAction) (e : EventEntry) :
    List CommandRecord :=
  [⟨effect e, place, action⟩, ⟨.logEvent e, place, action⟩]

/-- The commands for the simulated entry, and without a cause for the reported one where it differs. -/
def commands (r : Reconciled) : List CommandRecord :=
  (r.calculated?.toList.flatMap fun c =>
      commandsOf c.place (c.measurement.bind Evidence.action) c.entry)
    ++ (r.surplus?.bind ReportedEvent.entry?).toList.flatMap (commandsOf none none)

end Reconciled

end MeasuredBoot
