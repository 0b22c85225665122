import MeasuredBoot.Step

/-!
# Flows

A flow is a named list of steps. Steps switch to other flows by reference, so flows may lead to each other
in circles. A registry finds flows by name in any case and holds no two whose names differ only in case.
-/
namespace MeasuredBoot

/-- A named list of steps. -/
structure Flow where
  name : String
  steps : List Step

def Flow.text (f : Flow) : String := "Flow(" ++ f.name ++ ")"

/-- Flows by name. -/
structure FlowRegistry where
  flows : List Flow := []

namespace FlowRegistry

def key (name : String) : String := Text.lower name

def find? (r : FlowRegistry) (name : String) : Option Flow :=
  r.flows.find? fun f => key f.name = key name

def contains (r : FlowRegistry) (name : String) : Bool := (r.find? name).isSome

/-- Adds a flow whose name is not taken. -/
def register (r : FlowRegistry) (f : Flow) : Except Fault FlowRegistry :=
  if r.contains f.name then .error (.flow (.registered (key f.name)))
  else .ok ⟨r.flows ++ [f]⟩

def get (r : FlowRegistry) (name : String) : Except Fault Flow :=
  match r.find? name with
  | some f => .ok f
  | none => .error (.flow (.unknown name))

def ofList (flows : List Flow) : Except Fault FlowRegistry := flows.foldlM register {}

def names (r : FlowRegistry) : List String :=
  (r.flows.map Flow.name).mergeSort fun a b => a ≤ b

end FlowRegistry
end MeasuredBoot
