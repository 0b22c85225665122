import MeasuredBoot.Step

/-!
# Records of executed steps

For every executed step a log holds who was running and from which code, what the step was and did, the
evidence it added, and the issues it met: faults while producing the actions, while applying one of them,
or while resolving the code of the actor.
-/
namespace MeasuredBoot

/-- Where in a step a fault arose. -/
inductive IssuePlace where
  | actions
  | action (index : Nat)
  | actor
deriving DecidableEq

def IssuePlace.text : IssuePlace → String
  | actions => "actions"
  | action i => "action#" ++ Text.decimal i
  | actor => "actor"

/-- A fault that did not end the run; one about the log as a whole has no place. -/
structure StepIssue where
  place : Option IssuePlace
  fault : Fault

namespace StepIssue

def placeText (i : StepIssue) : String := Text.optional IssuePlace.text i.place

def text (i : StepIssue) : String := i.placeText ++ ": " ++ i.fault.message

end StepIssue

/-- What is known about an executed step. -/
structure StepRecord where
  actor : Option Actor
  code : Option Data
  step : Step
  actions : List IssuedAction
  measured : List Evidence
  verified : List Evidence
  issues : List StepIssue

namespace StepRecord

def document (r : StepRecord) : Text.Json := .object [
  ("step", .str r.step.text),
  ("actor", .ofText? (r.actor.map Actor.name)),
  ("actor_code", (r.code.map Data.document).getD .null),
  ("actions", .list (r.actions.map fun a => .str a.action.text)),
  ("measured_data", .list (r.measured.map Evidence.document)),
  ("verified_data", .list (r.verified.map Evidence.document)),
  ("issues", .list (r.issues.map fun i =>
    .object [("coords", .str i.placeText), ("issue", .str i.fault.message)]))]

/-- A heading and numbered lines below it; nothing without lines. -/
def paragraph (heading : String) (lines : List String) : List String :=
  if lines.isEmpty then []
  else ("\t" ++ heading ++ ":")
    :: lines.zipIdx.map fun (line, i) => "\t\t" ++ Text.decimal i ++ ". " ++ line

/-- The lines that show a record after its number. -/
def lines (r : StepRecord) (number : Nat) : List String :=
  (Text.decimal number ++ ". " ++ r.step.text ++ ":")
    :: paragraph "MeasuredData" (r.measured.map (Evidence.text Evidence.measuredKind))
    ++ paragraph "VerifiedData" (r.verified.map (Evidence.text Evidence.verifiedKind))
    ++ paragraph "Actions" (r.actions.map fun a => a.action.text)
    ++ paragraph "Issues" (r.issues.map StepIssue.text)

end StepRecord

abbrev BootLog := List StepRecord

namespace BootLog

def issuesCount (l : BootLog) : Nat := l.foldr (fun r n => r.issues.length + n) 0

def errored (l : BootLog) : List StepRecord := l.filter fun r => !r.issues.isEmpty

/-- The steps with issues and their issues, unless there are none. -/
def errorText? (l : BootLog) : Option String :=
  if l.errored.isEmpty then none
  else some ("\n".intercalate (l.errored.flatMap fun r =>
    ("step " ++ r.step.text ++ ":") :: r.issues.map fun i => "\t" ++ i.text))

def faults (l : BootLog) : List Fault := l.flatMap fun r => r.issues.map StepIssue.fault

def measured (l : BootLog) : List Evidence := l.flatMap StepRecord.measured

def verified (l : BootLog) : List Evidence := l.flatMap StepRecord.verified

def measuredWith (l : BootLog) (part : Part) : List Evidence :=
  l.measured.filter fun e => e.chain = some part

def document (l : BootLog) : Text.Json :=
  .object [("steps", .list (l.map StepRecord.document))]

/-- The sizes of a log, its issues and what was measured into the parts of a state, as a document. -/
def summary (l : BootLog) (s : State) : Text.Json := .object [
  ("steps", .int l.length),
  ("issues", .int l.issuesCount),
  ("errored", .ofText? l.errorText?),
  ("errored_kinds", .ofTexts (l.faults.map Fault.kind)),
  ("measured_with", .object ((s.parts.filter (!·.isArtifact)).map fun p =>
    (p.key, .int (l.measuredWith p).length))),
  ("verified", .int l.verified.length),
  ("measured_references", .str (Evidence.referencesOf l.measured).text)]

def text (l : BootLog) : String :=
  "\n".intercalate (l.zipIdx.flatMap fun (r, i) => r.lines i)

end BootLog
end MeasuredBoot
