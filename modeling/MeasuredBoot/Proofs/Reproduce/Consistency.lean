import MeasuredBoot.Proofs.Search.Register
import MeasuredBoot.Proofs.Search.Reorder
import MeasuredBoot.Proofs.Tpm.Faults
import MeasuredBoot.Reproduce.Pcr0

/-!
# Faults that do not blame the search

One fault says that the search for corrections of register zero has answered something that does not hold.
Nothing that the search calls raises it: neither reading the measured data, nor hashing, nor replaying the
commands on a TPM, nor the searches for a register value and for another order.
-/
namespace MeasuredBoot

/-- True of every fault but the one about an answer that does not hold. -/
def Fault.Consistent : Fault → Prop
  | .search (.inconsistent _ _) => False
  | _ => True

/-- A computation that never blames the search. -/
abbrev Consistent {α : Type} (x : Except Fault α) : Prop := FaultsWithin Fault.Consistent x

theorem Fault.consistent_of_ofCommand {f : Fault} (h : f.OfCommand) : f.Consistent := by
  cases f with
  | search _ => cases h
  | _ => trivial

theorem consistent_of_onData {α : Type} {x : Except Fault α} (h : OnData x) : Consistent x :=
  h.mono fun _ hf => Fault.consistent_of_ofCommand (.of_ofData hf)

theorem consistent_hashBytes (a : Algorithm) (b : Bytes) : Consistent (hashBytes a b) :=
  consistent_of_onData (onData_hashBytes a b)

theorem Tpm.consistent_replay (cs : List Command) (locality : Int) (a : Algorithm) :
    Consistent (replay cs locality a) :=
  (ofCommand_replay cs locality a).mono fun _ hf => Fault.consistent_of_ofCommand hf

/-! ## Searching -/

namespace RegisterSearch
variable {check : Bytes → Except Fault Bool}

theorem consistent_value (b : Bytes) : Consistent (value b) := by
  unfold value
  split
  · exact .ok _
  · exact .error trivial

theorem consistent_countDown (h : ∀ b, Consistent (check b)) (count : Nat) (v : Int) (asked : Nat) :
    Consistent (countDown check count v asked).outcome := by
  induction count generalizing v asked with
  | zero => exact .ok _
  | succ count ih =>
      rw [countDown]
      split
      · rename_i f hf
        exact .error (h _ f hf)
      · exact .ok _
      · exact ih _ _

theorem consistent_combinatorial (h : ∀ b, Consistent (check b)) (initial : Bytes) (limit : Int) :
    Consistent (combinatorial initial limit check).outcome := by
  have hflips : Consistent (BitFlips.run (flipQuery initial limit check)).outcome := by
    intro f hf
    have hexplained := BitFlips.run_explained (flipQuery initial limit check)
    rw [hf] at hexplained
    obtain hobstacle | rfl | ⟨faults, rfl⟩ | ⟨b, hb⟩ := hexplained
    · unfold BitFlips.obstacle? at hobstacle
      simp only at hobstacle
      split at hobstacle
      · cases hobstacle
        trivial
      · split at hobstacle
        · cases hobstacle
          trivial
        · split at hobstacle <;> cases hobstacle
          trivial
    · trivial
    · trivial
    · exact h b f hb
  refine hflips.bind fun found _ => ?_
  cases found with
  | none => exact .ok _
  | some c => exact (consistent_value _).map some

theorem consistent_run (h : ∀ b, Consistent (check b)) (initial : Bytes) (bounds : RegisterBounds) :
    Consistent (run initial check bounds).outcome := by
  have hlinear : Consistent (linear initial bounds.maxCountdown check).outcome := by
    unfold linear
    split
    · rename_i f hf
      exact .error (consistent_value initial f hf)
    · exact consistent_countDown h _ _ _
  unfold run
  split
  · exact .error trivial
  · simp only
    split
    · split
      · simpa using consistent_combinatorial h initial bounds.maxFlips
      · simpa using hlinear
    · simpa using hlinear

end RegisterSearch

theorem Reorder.consistent_upTo {α : Type} {matching : List α → Except Fault Bool}
    (h : ∀ xs, Consistent (matching xs)) (limit : Int) (xs : List α) :
    Consistent (upTo matching limit xs) := by
  rw [upTo_eq_firstAnswer]
  exact .firstAnswer fun s _ => (h _).map _

namespace Pcr0

theorem consistent_stepAt (flows : FlowCatalog) (place : Coordinates) :
    Consistent (flows.stepAt place) := by
  unfold FlowCatalog.stepAt
  split
  · exact .error trivial
  · split
    · exact .ok _
    · exact .error trivial

theorem consistent_isDataMeasurement (flows : FlowCatalog) (r : CommandRecord) :
    Consistent (isDataMeasurement flows r) := by
  unfold isDataMeasurement
  split
  · exact .ok _
  · split
    · exact .ok _
    · exact (consistent_stepAt flows _).bind fun _ _ => .ok _

theorem consistent_dataOf (r : CommandRecord) : Consistent (dataOf r) := by
  unfold dataOf
  split
  · split
    · exact .error trivial
    · refine (consistent_of_onData (Data.onData_raw _)).bind fun data _ => ?_
      exact (consistent_of_onData (Reference.onData_read _)).bind fun _ _ => .ok _
  · exact .error trivial

namespace Job

theorem consistent_isReached (j : Job) (cs : List Command) : Consistent (j.isReached cs) :=
  (Tpm.consistent_replay cs j.locality j.algorithm).bind fun _ _ => .ok _

theorem consistent_swaps (j : Job) (cs : List Command) : Consistent (j.swaps cs) :=
  Reorder.consistent_upTo j.consistent_isReached _ cs

theorem consistent_withRegister (j : Job) (data register : Bytes) (cs : List Command) :
    Consistent (j.withRegister data register cs) :=
  (consistent_hashBytes _ _).bind fun _ _ => .ok _

theorem consistent_registerData (j : Job) (r : CommandRecord) : Consistent (j.registerData r) := by
  refine (consistent_isDataMeasurement j.flows r).bind fun isData _ => ?_
  split
  · exact (consistent_dataOf r).map some
  · exact .ok _

end Job
end Pcr0
end MeasuredBoot
