import MeasuredBoot.Reproduce.Corrections

/-!
# Reproducing register zero

Given the commands of a simulated boot and a digest that the real machine reports, the search looks for
corrections with which the extends of register zero lead to that digest: the locality of the start, the
measured value of the policy status register, measurements that did not happen, and pairs of measurements
that happened in the other order. Fewer corrections are tried first.
-/
namespace MeasuredBoot

/-- The bounds of the search for corrections. -/
structure Pcr0Bounds extends RegisterBounds where
  maxDisabled : Int := 4
  maxSwaps : Int := 0

namespace Pcr0

def localities : List Int := [0, 3]

/-- The search for one locality. -/
structure Job where
  flows : FlowCatalog
  algorithm : Algorithm
  expected : Bytes
  locality : Int
  bounds : Pcr0Bounds

namespace Job

/-- True of commands which lead to the expected digest. -/
def isReached (j : Job) (cs : List Command) : Except Fault Bool := do
  return (← Tpm.replay cs j.locality j.algorithm) == j.expected

/-- The exchanges with which commands lead to the expected digest. -/
def swaps (j : Job) (cs : List Command) : Except Fault (Option (List (Nat × Nat))) :=
  Reorder.upTo j.isReached j.bounds.maxSwaps cs

/-- The first command replaced by the extend of data with another register value. -/
def withRegister (j : Job) (data register : Bytes) (cs : List Command) : Except Fault (List Command) := do
  let digest ← RegisterSearch.dataDigest data register j.algorithm
  return .extend 0 j.algorithm digest :: cs.drop 1

/-- The measured data with the register in front, if that is what a measurement measured. -/
def registerData (j : Job) (r : CommandRecord) : Except Fault (Option (Bytes × Bytes)) := do
  if ← isDataMeasurement j.flows r then some <$> dataOf r else pure none

/-- The exchanges and the register value with which measurements lead to the expected digest. A value is
searched exactly if the first measurement is that of the data with the register. -/
def verify (j : Job) (enabled : List CommandRecord) :
    Journal.Run (Option (List (Nat × Nat) × Option Nat)) := do
  let cs := enabled.map CommandRecord.command
  let first ← match enabled with
    | [] => pure none
    | r :: _ => attempt (j.registerData r)
  match first with
  | none => return (← attempt (j.swaps cs)).map fun s => (s, none)
  | some (data, register) =>
    let check (candidate : Bytes) : Except Fault Bool := do
      return (← j.swaps (← j.withRegister data candidate cs)).isSome
    let r := RegisterSearch.run register check j.bounds.toRegisterBounds
    Journal.append r.journal
    match ← attempt r.outcome with
    | none => return none
    | some v =>
      let corrected ← attempt (j.withRegister data (RegisterSearch.bytes v) cs)
      return some ((← attempt (j.swaps corrected)).getD [], some v)

/-- The corrections for a set of disabled measurements. -/
def tryDisabled (j : Job) (ms : List CommandRecord) (disabled : Combination) :
    Journal.Run (Option Corrections) := do
  let enabled := (List.range ms.length).filter fun i => !disabled.contains i
  match ← j.verify (enabled.filterMap fun i => ms[i]?) with
  | none => return none
  | some (swaps, v) =>
    return some {
      algorithm := j.algorithm
      locality := j.locality
      register := v.map Int.ofNat
      disabled := disabled.map Int.ofNat
      swaps := swaps.map fun (i, k) => ⟨enabled.getD i 0, enabled.getD k 0⟩ }

/-- The first corrections within the bounds, fewer disabled measurements first. -/
def run (j : Job) (ms : List CommandRecord) : Journal.Run (Option Corrections) :=
  firstAnswer (fun count => Combination.first count ms.length (j.tryDisabled ms))
    (List.range (min j.bounds.maxDisabled ms.length + 1).toNat)

end Job

/-- The corrections for one locality, confirmed. -/
def tryLocality (flows : FlowCatalog) (records : List CommandRecord) (a : Algorithm) (expected : Bytes)
    (bounds : Pcr0Bounds) (locality : Int) : Journal.Run (Option Corrections) := do
  match ← Job.run ⟨flows, a, expected, locality, bounds⟩ (measurements records a) with
  | none =>
    Journal.note .debug ("[pcrbruteforcer] no answer with locality " ++ Text.decimal locality)
    return none
  | some c =>
    if !(← attempt (isConfirmed c records expected)) then
      throw (.search (.inconsistent c.text expected.toHex))
    Journal.note .good ("[pcrbruteforcer] reproduced PCR0: " ++ c.text)
    return some c

/-- The first corrections within the bounds with which register zero has the expected digest. -/
def reproduce (flows : FlowCatalog) (records : List CommandRecord) (a : Algorithm) (expected : Bytes)
    (bounds : Pcr0Bounds) : Journal.Run (Option Corrections) := do
  Journal.note .debug ("[pcrbruteforcer] expected PCR0 " ++ a.name ++ " == " ++ expected.toHex ++ ", "
    ++ Text.decimal (measurements records a).length ++ " measurements")
  match ← firstAnswer (tryLocality flows records a expected bounds) localities with
  | some c => return some c
  | none =>
    Journal.note .bad ("[pcrbruteforcer] unable to reproduce PCR0 " ++ expected.toHex)
    return none

end Pcr0
end MeasuredBoot
