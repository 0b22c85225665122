import MeasuredBoot.State

/-!
# Traced entries

Each entry of a simulated event log is traced to the measurement that it records. The command log is
divided into runs of commands from one step; within a run, the extends of a register and the entries for
it are paired in order. A step that only adds entries measured nothing.
-/
namespace MeasuredBoot

/-- An entry of a simulated event log with the measurement it records and the place of its step. -/
structure TracedEntry where
  entry : EventEntry
  measurement : Option Evidence
  place : Option Coordinates

namespace TracedEntry

/-- What a command did to the register of an algorithm. -/
inductive Effect where
  | nothing
  | extended (m : Option Evidence)
  | logged (e : EventEntry)

namespace Effect

def measurement? : Effect → Option (Option Evidence)
  | extended m => some m
  | _ => none

def entry? : Effect → Option EventEntry
  | logged e => some e
  | _ => none

end Effect

/-- The measurements into the TPM by the actions that made them. -/
abbrev Causes := List (ActionIdentity × Evidence)

/-- Adds a measurement, whose action must be known and must not have measured before. -/
def addCause (known : Causes) (m : Evidence) : Except Fault Causes :=
  match m.action with
  | none => .error (.search (.unknownCause (m.text Evidence.measuredKind)))
  | some a =>
    if (known.lookup a.identity).isSome then .error (.search (.measuredTwice a.action.text))
    else .ok (known ++ [(a.identity, m)])

/-- The measurements into the TPM of a state. -/
def causes (s : State) : Except Fault Causes :=
  (s.measured.toList.filter fun m => m.chain = some .tpm).foldlM addCause []

/-- True of a command that adds to the event log. -/
def isLogging (r : CommandRecord) : Bool :=
  match r.command with
  | .logEvent _ => true
  | _ => false

/-- The places and effects of commands, given the entries which the logging ones have added. -/
def effects (known : Causes) (pcr : Int) (a : Algorithm) :
    List CommandRecord → List EventEntry → List (Option Coordinates × Effect)
  | [], _ => []
  | r :: rest, es =>
    match r.command, es with
    | .init _, es => (r.place, .nothing) :: effects known pcr a rest es
    | .extend p b _, es =>
      let m := r.action.bind fun x => known.lookup x.identity
      (r.place, if p = pcr && b = a then .extended m else .nothing) :: effects known pcr a rest es
    | .logEvent c, e :: more =>
      (r.place, if c.pcr = pcr && c.algorithm = a then .logged e else .nothing)
        :: effects known pcr a rest more
    | .logEvent _, [] => (r.place, .nothing) :: effects known pcr a rest []

/-- The traced entries of one step: either nothing was measured, or as much as was logged. -/
def ofStep (step : List (Option Coordinates × Effect)) : Except Fault (List TracedEntry) :=
  let place := step.head?.bind Prod.fst
  let measurements := step.filterMap fun (_, x) => x.measurement?
  let entries := step.filterMap fun (_, x) => x.entry?
  let measurementsText :=
    Text.bracketed (measurements.map (Text.optional (Evidence.text Evidence.measuredKind)))
  if measurements.isEmpty then .ok (entries.map fun e => ⟨e, none, place⟩)
  else if entries.isEmpty then .error (.search (.unloggedMeasurements measurementsText))
  else if measurements.length ≠ entries.length then
    .error (.search (.unequalMeasurements measurementsText
      (Text.bracketed (entries.map EventEntry.fieldsText))))
  else .ok (List.zipWith (fun e m => ⟨e, m, place⟩) entries measurements)

/-- The traced entries for the register of an algorithm. -/
def ofState (s : State) (pcr : Int) (a : Algorithm) : Except Fault (List TracedEntry) := do
  let t ← s.theTpm
  let known ← causes s
  let records := t.commands.toList
  let seen := (records.filter isLogging).length
  if t.events.size < seen then throw (.argument (.position "list"))
  if seen ≠ t.events.size then throw (.search (.loggedCount seen t.events.size))
  let steps := (effects known pcr a records t.events.toList).splitBy fun x y =>
    Coordinates.sameStep x.1 y.1
  return (← steps.mapM ofStep).flatten

end TracedEntry
end MeasuredBoot
