import MeasuredBoot.Action.Apply
import MeasuredBoot.Boot.Record
import MeasuredBoot.Flow.Catalog
import MeasuredBoot.Journal
import MeasuredBoot.Step.Actions

/-!
# Running a boot

A run executes the steps of the current flow one by one. A step may switch to another flow; the rest of
its actions are then left out. Every executed step leaves one record, and the number of records is
bounded, so a run ends even if flows lead to each other in circles. Faults become issues of the record,
except a panic and an exhausted budget, which end the run.
-/
namespace MeasuredBoot

/-- A run in progress. -/
structure Boot where
  state : State
  maxSteps : Int
  log : Array StepRecord := #[]
  /-- How many actions were issued so far. -/
  issued : Nat := 0
  journal : Journal := #[]

namespace Boot

/-- The number of steps that a run may execute if nothing else is said. -/
def usualMaxSteps : Int := 10000

/-- Changes to a run that may end it. -/
abbrev Run := EStateM Fault Boot

def note (level : Level) (text : String) : Run Unit :=
  modify fun b => { b with journal := b.journal.push ⟨level, text⟩ }

/-- Gives produced actions their identities, numbering the new ones from `next` on. -/
def identify (next : Nat) : List Step.Produced → List IssuedAction
  | [] => []
  | (some n, a) :: rest => ⟨.scripted n, a⟩ :: identify next rest
  | (none, a) :: rest => ⟨.issued next, a⟩ :: identify (next + 1) rest

/-- Applies one action to the state; a fault that is no panic becomes an issue. -/
def applyAction (flow : FlowRef) (index : Nat) (a : IssuedAction) : Run (List StepIssue) := do
  modify fun b => { b with state := { b.state with action := index } }
  let b ← get
  match Action.apply a b.state with
  | .ok _ s =>
    set { b with state := s }
    return []
  | .error f s =>
    set { b with state := s }
    if f.isPanic then
      note .bad ("[engine] Panic in " ++ flow.name ++ ":" ++ Text.decimal s.step ++ ": "
        ++ a.action.text)
      throw f
    note .verbose ("[engine] " ++ a.action.text ++ " failed: " ++ f.message)
    return [⟨some (.action index), f⟩]

/-- Applies actions until one of them switches the flow. -/
def applyActions (flow : FlowRef) : (index : Nat) → List IssuedAction → Run (List StepIssue)
  | _, [] => return []
  | index, a :: rest => do
    let issues ← applyAction flow index a
    if (← get).state.step = -1 then return issues
    return issues ++ (← applyActions flow (index + 1) rest)

/-- The code of the present actor, or the issue that it does not resolve. -/
def actorCode (s : State) : Option Data × List StepIssue :=
  match s.actor.bind Actor.code? with
  | none => (none, [])
  | some source =>
    match source.resolve s with
    | .ok d => (some d, [])
    | .error f => (none, [⟨some .actor, f⟩])

/-- The actions of a step, or the issue that it cannot produce them. -/
def produce (step : Step) (s : State) : List Step.Produced × List StepIssue :=
  match step.actions s with
  | .ok actions => (actions, [])
  | .error f => ([], [⟨some .actions, f⟩])

/-- Executes a step of a flow and records it. -/
def executeStep (flow : FlowRef) (step : Step) : Run Unit := do
  let before := (← get).state
  let (measured, verified) := (before.measured.size, before.verified.size)
  note .debug ("[engine] " ++ flow.name ++ ":" ++ Text.decimal before.step ++ " " ++ step.text)
  let (produced, failed) := produce step before
  let actions := identify (← get).issued produced
  modify fun b => { b with issued := b.issued + produced.length }
  let issues ← applyActions flow 0 actions
  let after := (← get).state
  let (code, unresolved) := actorCode after
  let record : StepRecord := {
    actor := after.actor
    code := code
    step := step
    actions := actions
    measured := (after.measured.extract measured after.measured.size).toList
    verified := (after.verified.extract verified after.verified.size).toList
    issues := failed ++ issues ++ unresolved }
  modify fun b => { b with log := b.log.push record }

/-- Executes the next step of the current flow, if there is one, and tells whether there was. -/
def nextStep (flows : FlowCatalog) : Run Bool := do
  match (← get).state.flow with
  | none => return false
  | some flow =>
    modify fun b => { b with state := { b.state with step := b.state.step + 1 } }
    let b ← get
    match (flows.steps flow)[b.state.step.toNat]? with
    | none => return false
    | some step =>
      if b.maxSteps ≤ b.log.size then throw (.budget b.maxSteps flow.name)
      executeStep flow step
      return true

/-- Executes no more than `fuel` steps. -/
def steps (flows : FlowCatalog) : (fuel : Nat) → Run Unit
  | 0 => return ()
  | fuel + 1 => do
    if ← nextStep flows then steps flows fuel

/-- Executes steps until none is left; one more step than the budget allows ends the run anyway. -/
def finish (flows : FlowCatalog) : Run Unit := do
  let b ← get
  steps flows ((b.maxSteps - b.log.size).toNat + 1)
  let log := (← get).log.toList
  note .verbose ("[engine] Finished after " ++ Text.decimal log.length ++ " steps with "
    ++ Text.decimal (BootLog.issuesCount log) ++ " issues")

/-- Executes a number of steps, and lists for each whether there was one and the state after it. -/
def advance (flows : FlowCatalog) : (count : Nat) → Boot → List (Bool × State) × Option Fault × Boot
  | 0, b => ([], none, b)
  | count + 1, b =>
    match nextStep flows b with
    | .ok more next =>
      let (later, fault, last) := advance flows count next
      ((more, next.state) :: later, fault, last)
    | .error f last => ([], some f, last)

/-- Executes all steps; a run that ends early has a fault. -/
def complete (flows : FlowCatalog) (b : Boot) : Option Fault × Boot :=
  match finish flows b with
  | .ok _ last => (none, last)
  | .error f last => (some f, last)

def text (b : Boot) : String :=
  "Current state:\n\t" ++ b.state.text ++ "\nResulting steps:\n" ++ BootLog.text b.log.toList

/-- A run of a flow on a state. -/
def ofFlow (s : State) (flow : FlowRef) (maxSteps : Int) : Boot :=
  { state := s.setFlow flow, maxSteps := maxSteps }

end Boot
end MeasuredBoot
