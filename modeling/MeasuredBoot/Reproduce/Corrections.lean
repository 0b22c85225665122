import MeasuredBoot.Flow.Catalog
import MeasuredBoot.Search.Register
import MeasuredBoot.Search.Reorder

/-!
# Corrections of register zero

The extends of register zero in a command log may have to be corrected before they lead to the digest
that the real machine reports: the start may have had another locality, the policy status register another
value, measurements may not have happened, and pairs of measurements may have happened in the other order.
-/
namespace MeasuredBoot

/-- Two measurements in the other order, by index. -/
structure OrderSwap where
  first : Int
  second : Int
deriving DecidableEq

def OrderSwap.text (s : OrderSwap) : String :=
  "OrderSwap(idx_a=" ++ Text.decimal s.first ++ ", idx_b=" ++ Text.decimal s.second ++ ")"

/-- Corrections to the extends of register zero; indexes count these extends. -/
structure Corrections where
  algorithm : Algorithm
  locality : Int
  register : Option Int
  disabled : List Int
  swaps : List OrderSwap

namespace Corrections

def text (c : Corrections) : String :=
  "ReproducePCR0Result(locality=" ++ Text.decimal c.locality ++ ", acm_policy_status="
    ++ Text.optional (fun v => "0x" ++ Text.paddedHex 16 v) c.register
    ++ ", disabled_measurements=" ++ Text.bracketed (c.disabled.map Text.decimal)
    ++ ", order_swaps=" ++ Text.bracketed (c.swaps.map OrderSwap.text) ++ ")"

end Corrections

namespace Pcr0

/-- True of an extend of register zero with an algorithm. -/
def isMeasurement (a : Algorithm) (r : CommandRecord) : Bool :=
  match r.command with
  | .extend pcr b _ => pcr = 0 && b = a
  | _ => false

/-- The extends of register zero with an algorithm. -/
def measurements (records : List CommandRecord) (a : Algorithm) : List CommandRecord :=
  records.filter (isMeasurement a)

/-- True of a command whose place is the step that measures the data of register zero. -/
def isDataMeasurement (flows : FlowCatalog) (r : CommandRecord) : Except Fault Bool :=
  match r.place with
  | none => .ok false
  | some place =>
    if place.flow.isNone ∨ place.step < 0 then .ok false
    else do
      let s ← flows.stepAt place
      return s.isMeasurePcr0Data

/-- The measured data and the bytes of the register at their beginning, from the action of a command. -/
def dataOf (r : CommandRecord) : Except Fault (Bytes × Bytes) :=
  match r.action.map IssuedAction.action with
  | some (.tpmExtend _ (.fixed d) _) =>
    match d.references with
    | [] => .error (.search .pcr0DataWithoutReferences)
    | first :: _ => do
      let data ← d.raw
      return (data, ← first.read)
  | _ => .error (.search (.notPcr0Data r.command.text))

/-- Where an index stands among the enabled ones. -/
def positionOf (enabled : List Int) (i : Int) : Except Fault Nat :=
  match enabled.idxOf? i with
  | some k => .ok k
  | none => .error (.argument (.notInList i))

/-- The corrected commands, the initialisation first. -/
def correct (c : Corrections) (records : List CommandRecord) : Except Fault (List Command) := do
  let ms := measurements records c.algorithm
  let enabled := ms.zipIdx.filter fun (_, i) => !c.disabled.contains (i : Int)
  let cs := enabled.map fun (r, _) => r.command
  let cs ← match c.register, enabled with
    | some v, (r, _) :: _ => do
      let (data, _) ← dataOf r
      let digest ← RegisterSearch.dataDigest data (RegisterSearch.bytes v) c.algorithm
      pure (Command.extend 0 c.algorithm digest :: cs.drop 1)
    | _, _ => pure cs
  let indexes := enabled.map fun (_, i) => (i : Int)
  let swapped ← c.swaps.foldlM (fun cs s => do
    return Reorder.exchange cs (← positionOf indexes s.first) (← positionOf indexes s.second)) cs
  return .init c.locality :: swapped

/-- Corrections to a log as a document, together with the corrected commands. -/
def document (c : Corrections) (records : List CommandRecord) : Except Fault Text.Json := do
  let applied ← correct c records
  let disabled := (measurements records c.algorithm).zipIdx.filter fun (_, i) =>
    c.disabled.contains (i : Int)
  return .object [
    ("repr", .str c.text),
    ("locality", .int c.locality),
    ("acm_policy_status", .ofOption .int c.register),
    ("disabled_indexes", .ofList .int c.disabled),
    ("disabled", .ofTexts (disabled.map fun (r, _) => r.command.text)),
    ("order_swaps", .ofList (fun s => .ofList .int [s.first, s.second]) c.swaps),
    ("apply", .ofTexts (applied.map Command.text))]

/-- Register zero of a fresh TPM with one algorithm after commands. -/
def valueAfter (cs : List Command) (a : Algorithm) : Except Fault Bytes :=
  match Tpm.applyAll cs (Tpm.fresh [a]) with
  | .ok _ t => t.value 0 a
  | .error f _ => .error f

/-- True if corrections, once more applied, lead to the expected digest. -/
def isConfirmed (c : Corrections) (records : List CommandRecord) (expected : Bytes) :
    Except Fault Bool := do
  return (← valueAfter (← correct c records) c.algorithm) == expected

end Pcr0
end MeasuredBoot
