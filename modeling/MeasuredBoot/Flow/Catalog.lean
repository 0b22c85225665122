import MeasuredBoot.Flow.Shipped

/-!
# Catalogues of flows

A run knows the shipped flows and the flows that were supplied with it. A name means the supplied flow of
exactly that name, or else the shipped flow of that name in any case.
-/
namespace MeasuredBoot

/-- The flows supplied with a run. -/
structure FlowCatalog where
  supplied : List Flow := []

namespace FlowCatalog

/-- Puts a flow into the place of one with the same name, or at the end. -/
def put (flows : List Flow) (f : Flow) : List Flow :=
  if flows.any (·.name = f.name) then flows.map fun g => if g.name = f.name then f else g
  else flows ++ [f]

/-- The catalogue of some flows; of one name, the last flow counts. -/
def ofList (flows : List Flow) : FlowCatalog := ⟨flows.foldl put []⟩

/-- The flow to which a reference points. -/
def flow? (c : FlowCatalog) (r : FlowRef) : Option Flow :=
  match r.origin with
  | .shipped => Shipped.flows.find? (·.name = r.name)
  | .supplied => c.supplied.find? (·.name = r.name)

/-- The steps of the flow to which a reference points; none without such a flow. -/
def steps (c : FlowCatalog) (r : FlowRef) : List Step := ((c.flow? r).map Flow.steps).getD []

def resolve (supplied : List String) (name : String) : Except Fault FlowRef :=
  if supplied.contains name then .ok ⟨.supplied, name⟩
  else do
    let f ← Shipped.registry.get name
    return ⟨.shipped, f.name⟩

/-- The flow that a name means to a registry of the supplied flows alone. -/
def resolveAmong (c : FlowCatalog) (name : String) : Except Fault FlowRef := do
  let r ← FlowRegistry.ofList c.supplied
  let f ← r.get name
  return ⟨.supplied, f.name⟩

/-- The item at a signed position; a position below zero counts from the end. -/
def itemAt? {α : Type} (xs : List α) (position : Int) : Option α :=
  if 0 ≤ position then xs[position.toNat]?
  else if -position ≤ xs.length then xs[(xs.length + position).toNat]?
  else none

def stepAt (c : FlowCatalog) (place : Coordinates) : Except Fault Step :=
  match place.flow with
  | none => .error (.flow .noFlow)
  | some r =>
    match itemAt? (c.steps r) place.step with
    | some s => .ok s
    | none => .error (.flow .noSuchStep)

end FlowCatalog
end MeasuredBoot
