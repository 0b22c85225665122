import MeasuredBoot.Boot.Record
import MeasuredBoot.Source.Resolve

/-!
# Validation of a finished boot

Three validators look at a log. The first asks that the code of every actor was measured in an earlier
step than the one in which the actor begins to run; the second that all executable files of the image
were measured by the end; the third reports every issue of the log. Other checks may take part beside them
or in their place. The findings of all that take part are ordered by step, place, kind and message, so
their order does not matter.
-/
namespace MeasuredBoot

/-- An issue found about a step of a log. -/
structure Finding where
  step : Nat
  issue : StepIssue

namespace Finding

/-- What findings are ordered by, after the step. -/
def key (f : Finding) : List String :=
  [f.issue.placeText, f.issue.fault.kind, f.issue.fault.message]

/-- Lists of texts are ordered by the first text in which they differ. -/
def keyPrecedes : List String → List String → Bool
  | [], _ => true
  | _ :: _, [] => false
  | x :: xs, y :: ys => x < y || (x = y && keyPrecedes xs ys)

def precedes (f g : Finding) : Bool :=
  f.step < g.step || (f.step = g.step && keyPrecedes f.key g.key)

def text (f : Finding) : String := "step#" ++ Text.decimal f.step ++ " " ++ f.issue.text

def document (f : Finding) : Text.Json := .object [
  ("step", .int f.step), ("coords", .str f.issue.placeText), ("kind", .str f.issue.fault.kind),
  ("str", .str f.text)]

end Finding

/-- The validators. -/
inductive Validator where
  | actors
  | coverage
  | noIssues
deriving DecidableEq

namespace Validator

def name : Validator → String
  | actors => "actors"
  | coverage => "coverage"
  | noIssues => "no_issues"

def all : List Validator := [.actors, .coverage, .noIssues]

def ofName? (s : String) : Option Validator := all.find? (·.name = s)

/-- The references as offsets, or the finding that they do not resolve. -/
def resolved (step : Nat) (what : String) (rs : References) :
    Except Fault (References × List Finding) :=
  match rs.resolve with
  | .ok offsets => .ok (offsets, [])
  | .error f =>
    if f.isUnresolved then
      .ok ([], [⟨step, some .actor, .validation (.unresolved what rs.text f.message)⟩])
    else .error f

/-- That an actor ran whose code was not measured before. -/
def unprotected (step : Nat) (actor : Actor) (missing measured : References) : Finding :=
  ⟨step, some .actor, .validation (.unprotectedActor
    ("actor " ++ actor.name ++ " executed step " ++ Text.decimal step ++ ", while their areas "
      ++ missing.text ++ " were not protected; protected by this moment were only: "
      ++ measured.text))⟩

/-- The findings about the actor of a step, given what was measured before the step and by its end. -/
def actorFindings (step : Nat) (r : StepRecord) (previous : Option Actor) (before after : References) :
    Except Fault (List Finding) :=
  match r.actor, r.code with
  | some actor, some code =>
    if previous = some actor then .ok []
    else do
      let (refs, issues) ← resolved step "actor" code.references
      let missing := refs.exclude before
      if missing.isEmpty then return issues
      return issues ++ [unprotected step actor missing after]
  | _, _ => .ok []

/-- The findings about the actors of a log from a step on. -/
def actorsFrom (step : Nat) (previous : Option Actor) (before : References) :
    BootLog → Except Fault (List Finding)
  | [] => .ok []
  | r :: rest => do
    let (refs, issues) ← resolved step "measured" (Evidence.referencesOf r.measured)
    let after := References.merge (before ++ refs)
    let found ← actorFindings step r previous before after
    let present := if r.actor.isSome then r.actor else previous
    return issues ++ found ++ (← actorsFrom (step + 1) present after rest)

/-- The findings about executable files that were never measured. -/
def coverageFindings (s : State) (l : BootLog) : Except Fault (List Finding) := do
  let last := l.length - 1
  let (refs, issues) ← resolved last "measured" (Evidence.referencesOf l.measured)
  let measured := refs.merge
  match Source.executables.resolve s with
  | .error f =>
    if f.isUnresolved then
      return issues ++ [⟨last, none, .validation (.noExecutables f.message)⟩]
    else throw f
  | .ok d =>
    let (executable, more) ← resolved last "executable" d.references
    let missing := executable.exclude measured
    if missing.isEmpty then return issues ++ more
    return issues ++ more ++ [⟨last, none, .validation (.incompleteCoverage
      ("executable areas " ++ missing.text ++ " are not protected; protected areas are only: "
        ++ measured.text))⟩]

def logFindings (l : BootLog) : List Finding :=
  l.zipIdx.flatMap fun (r, i) => r.issues.map fun issue => ⟨i, issue⟩

/-- The findings of a validator; without a state or a record, coverage finds nothing. -/
def run (s : Option State) (l : BootLog) : Validator → Except Fault (List Finding)
  | actors => actorsFrom 0 none [] l
  | coverage =>
    match s with
    | some state => if l.isEmpty then .ok [] else coverageFindings state l
    | none => .ok []
  | noIssues => .ok (logFindings l)

end Validator

/-- Something that finds issues in a log, given the machine if it is at hand. -/
abbrev Check := Option State → BootLog → Except Fault (List Finding)

namespace Check

/-- The findings of several checks in order. -/
def report (s : Option State) (l : BootLog) (checks : List Check) : Except Fault (List Finding) := do
  let found ← checks.mapM fun check => check s l
  return found.flatten.mergeSort Finding.precedes

end Check

namespace Validator

def check (v : Validator) : Check := fun s l => run s l v

/-- The findings of several validators in order. -/
def validate (s : Option State) (l : BootLog) (vs : List Validator) : Except Fault (List Finding) :=
  Check.report s l (vs.map check)

end Validator
end MeasuredBoot
