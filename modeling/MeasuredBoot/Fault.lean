import MeasuredBoot.Fault.Wording
import MeasuredBoot.Text.Quoted

/-!
# Faults

A fault is a cause of any group. It has a kind, under which reports name it, and a message. A fault of a
step becomes an issue of that step's record; only a panic and an exhausted budget end a whole run.
-/
namespace MeasuredBoot

/-- Anything that can go wrong. -/
inductive Fault where
  | mapping (f : MappingFault)
  | read (f : ReadFault)
  | encoding (f : EncodingFault)
  | data (f : DataFault)
  | source (f : SourceFault)
  | state (f : StateFault)
  | flow (f : FlowFault)
  | tpm (f : TpmFault)
  | log (f : LogFault)
  | panic (reason : String)
  | budget (limit : Int) (flow : String)
  | search (f : SearchFault)
  | argument (f : ArgumentFault)
  | validation (f : ValidationFault)
  | options (f : OptionFault)

instance : Inhabited Fault := ⟨.panic ""⟩

namespace Fault

/-- The word under which reports name the fault. -/
def kind : Fault → String
  | mapping _ => "MappingError"
  | read _ => "ArtifactReadError"
  | encoding f => f.kind
  | data _ => "InvalidDataError"
  | source f => f.kind
  | state f => f.kind
  | flow f => f.kind
  | tpm f => f.kind
  | log _ => "EventLogParseError"
  | panic _ => "PanicError"
  | budget .. => "ExecutionBudgetExceeded"
  | search f => f.kind
  | argument f => f.kind
  | validation f => f.kind
  | options _ => "BootflowConfigError"

def message : Fault → String
  | mapping f => f.message
  | read f => f.message
  | encoding f => f.message
  | data f => f.message
  | source f => f.message
  | state f => f.message
  | flow f => f.message
  | tpm f => f.message
  | log f => f.message
  | panic reason => reason
  | budget limit name =>
    "Exceeded the limit of " ++ Text.decimal limit ++ " steps (flow " ++ name ++ ")"
  | search f => f.message
  | argument f => f.message
  | validation f => f.message
  | options f => f.message

/-- Kind and quoted message, as an item of a list of faults. -/
def text (f : Fault) : String := f.kind ++ "(" ++ Text.quoted f.message ++ ")"

/-- True of the faults with which a source or a reference fails to resolve: something is not there, or
an address is not mapped. -/
def isUnresolved : Fault → Bool
  | mapping _ | source _ => true
  | state (.absent part) => part.isArtifact
  | state (.notAnArtifact _) => true
  | _ => false

/-- True of the faults that end a run at once. -/
def isPanic : Fault → Bool
  | panic _ => true
  | _ => false

/-- True of a fault with wording of its own; the others only pass on a limit of their arguments. -/
def hasWording : Fault → Bool
  | encoding _ | argument _ | validation _ => false
  | .flow .noFlow | .flow .noSuchStep => false
  | .tpm (.missingBank _ _) => false
  | _ => true

end Fault

/-- Takes over the result of a computation without a state, or its fault. -/
def attempt {σ α : Type} : Except Fault α → EStateM Fault σ α
  | .ok a => pure a
  | .error f => throw f

end MeasuredBoot
