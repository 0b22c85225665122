import MeasuredBoot.Reproduce.Alignment
import MeasuredBoot.Reproduce.Discrepancy
import MeasuredBoot.Reproduce.Reconciled
import MeasuredBoot.Search.Register

/-!
# Reconciling a reported log with a simulated boot

The entries which a simulated boot logged for register zero are aligned with the reported events, and
each pair is compared by digest. A pair about the data of register zero may differ because the policy
status register had another value; every other difference is explained as far as possible.
-/
namespace MeasuredBoot

/-- The bounds of a reconciliation. -/
structure ReconciliationBounds extends RegisterBounds where
  maxSkipped : Int := 2

/-- The entries of both logs side by side, the differences, and the corrected register value if one was
needed. -/
structure Reconciliation where
  entries : List Reconciled := []
  register : Option Nat := none
  issues : List Discrepancy := []

namespace Reconciliation

def add (r : Reconciliation) (x : Reconciled) (issues : List Discrepancy) : Reconciliation :=
  { r with entries := r.entries ++ [x], issues := r.issues ++ issues }

/-- True of a measurement of the policy status register and of other data. -/
def measuresRegister (m : Evidence) : Bool :=
  match m.data.references.filter fun r => r.artifact.number = State.txtPublicNumber with
  | [r] => r.ranges = [Register.acmPolicyStatusRange]
  | _ => false

/-- Compares data with the register in front: another register value may lead to the reported digest. -/
def compareData (bounds : ReconciliationBounds) (a : Algorithm) (r : Reconciliation) (c : TracedEntry)
    (e : ReportedEvent) (m : Evidence) : Journal.Run Reconciliation := do
  let data ← attempt m.data.raw
  let found := RegisterSearch.ofDigest data a e.digestValue bounds.toRegisterBounds
  Journal.append found.journal
  match ← attempt found.outcome with
  | some v =>
    return { r.add (.matched c e) [.registerChanged (data.take 8) (RegisterSearch.bytes v)] with
      register := some v }
  | none => return r.add (.mismatched c e) [.dataMismatch c.entry.digest e]

def compare (s : State) (bounds : ReconciliationBounds) (a : Algorithm) (r : Reconciliation)
    (c : TracedEntry) (e : ReportedEvent) : Journal.Run Reconciliation := do
  if e.digestValue = c.entry.digest then return r.add (.matched c e) []
  match c.measurement.filter measuresRegister with
  | some m => compareData bounds a r c e m
  | none => return r.add (.mismatched c e) [.otherDigest r.entries.length c (← Explanation.ofEvent s e)]

/-- Takes the next pair of the aligned logs. -/
def takePair (s : State) (bounds : ReconciliationBounds) (a : Algorithm) (r : Reconciliation) :
    Option TracedEntry × Option ReportedEvent → Journal.Run Reconciliation
  | (some c, some e) => compare s bounds a r c e
  | (some c, none) => return r.add (.missing c) [.missingEntry r.entries.length c]
  | (none, some e) => do
    let x ← Explanation.ofEvent s e
    return r.add (.unexpected e) [.unexpectedEntry r.entries.length x]
  | (none, none) => return r

/-- Gives aligned entries their measurements and places back. An entry is told from an equal one by its
number; the first traced entry that has not been met yet is met where its number stands. An entry with any
other number keeps neither a measurement nor a place. -/
def restore : List (TracedEntry × Nat) → List (Option (EventEntry × Nat) × Option ReportedEvent) →
    List (Option TracedEntry × Option ReportedEvent)
  | _, [] => []
  | traced, (none, e) :: rest => (none, e) :: restore traced rest
  | [], (some (c, _), e) :: rest => (some ⟨c, none, none⟩, e) :: restore [] rest
  | (t, number) :: more, (some (c, k), e) :: rest =>
    if k = number then (some ⟨c, t.measurement, t.place⟩, e) :: restore more rest
    else (some ⟨c, none, none⟩, e) :: restore ((t, number) :: more) rest

/-- The entries of a boot and the events of a log, side by side. What is aligned are the entries alone. -/
def align (calculated : List TracedEntry) (expected : ReportedLog) (maxSkipped : Int) :
    Journal.Run (List (Option TracedEntry × Option ReportedEvent)) := do
  let entries := calculated.map TracedEntry.entry
  let best ← attempt (Alignment.search expected entries maxSkipped)
  Journal.note .debug
    ("[pcrbruteforcer] event log alignment distance: " ++ Text.decimal best.cost)
  return restore calculated.zipIdx (best.pairs expected entries.zipIdx)

/-- Reconciles a log, if there is one, with the state after a boot. -/
def run (s : State) (log : Option ReportedLog) (a : Algorithm) (bounds : ReconciliationBounds) :
    Journal.Run Reconciliation := do
  match log with
  | none => throw (.search .noEventLog)
  | some l =>
    let calculated ← attempt (TracedEntry.ofState s 0 a)
    let pairs ← align calculated (l.filterEvents 0 a) bounds.maxSkipped
    let r ← pairs.foldlM (takePair s bounds a) {}
    Journal.note .verbose ("[pcrbruteforcer] reproduced the event log with "
      ++ Text.decimal r.issues.length ++ " issues")
    return r

/-- The simulated entries, with the reported ones where they differ. -/
def eventLog (r : Reconciliation) : List EventEntry := r.entries.flatMap Reconciled.entries

/-- The commands that lead to the event log. -/
def commandLog (r : Reconciliation) : List CommandRecord := r.entries.flatMap Reconciled.commands

def document (r : Reconciliation) : Text.Json := .object [
  ("entries", .ofList Reconciled.document r.entries),
  ("acm_policy_status", .ofOption (fun n => .int n) r.register),
  ("issues", .ofList Discrepancy.document r.issues),
  ("event_log", .ofTexts (r.eventLog.map EventEntry.text)),
  ("command_log", .ofList CommandRecord.document r.commandLog)]

end Reconciliation
end MeasuredBoot
