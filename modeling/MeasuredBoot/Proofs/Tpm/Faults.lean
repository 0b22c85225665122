import MeasuredBoot.Proofs.Source.Faults

/-!
# Refused commands

A TPM refuses a command because of its own state, of the bank the command names, or of data that cannot be
hashed or written. It never panics.
-/
namespace MeasuredBoot

def Fault.OfCommand : Fault → Prop
  | .tpm _ => True
  | f => f.OfData

theorem Fault.OfCommand.of_ofData {f : Fault} (h : f.OfData) : f.OfCommand := by
  cases f with
  | tpm _ => trivial
  | _ => exact h

theorem Fault.OfCommand.not_isPanic {f : Fault} (h : f.OfCommand) : f.isPanic = false := by
  cases f with
  | panic _ => cases h
  | _ => rfl

theorem EventLog.onData_startValue (size : Nat) (locality : Int) : OnData (startValue size locality) := by
  unfold startValue
  split
  · exact .error trivial
  · exact .ok _

namespace Tpm

abbrev MayRefuse {α : Type} (x : Run α) : Prop := Ensures x (fun _ => True) Fault.OfCommand

theorem mayRefuse_attempt {α : Type} {x : Except Fault α} (h : FaultsWithin Fault.OfCommand x) :
    MayRefuse (attempt x) := .attempt h fun _ _ => trivial

theorem mayRefuse_onData {α : Type} {x : Except Fault α} (h : OnData x) : MayRefuse (attempt x) :=
  mayRefuse_attempt (h.mono fun _ => .of_ofData)

theorem mayRefuse_initBank (locality : Int) (a : Algorithm) (size : Nat) (pcr : Int) :
    MayRefuse (initBank locality a size pcr) := by
  unfold initBank
  simp only
  split
  · exact (mayRefuse_onData (EventLog.onData_startValue size locality)).bind fun value _ => .modify _
  · exact Ensures.modify _

theorem mayRefuse_initRegisters (locality : Int) : MayRefuse (initRegisters locality) := by
  unfold initRegisters
  refine Ensures.get.bind fun t _ => ?_
  have hinit : MayRefuse (do (← get).algorithms.forM (initAlgorithm locality)) := by
    refine Ensures.get.bind fun t _ => .forM fun a _ => ?_
    exact (mayRefuse_onData (onData_digestSize a)).bind fun size _ =>
      .forM fun pcr _ => mayRefuse_initBank locality a size pcr
  split
  · exact .throw trivial
  · exact hinit

theorem ofCommand_value (t : Tpm) (pcr : Int) (a : Algorithm) :
    FaultsWithin Fault.OfCommand (t.value pcr a) := by
  unfold value
  split
  · exact .error trivial
  · split
    · exact .ok _
    · exact .error trivial

theorem mayRefuse_setValue (pcr : Int) (a : Algorithm) (v : Bytes) : MayRefuse (setValue pcr a v) := by
  unfold setValue
  refine Ensures.get.bind fun t _ => ?_
  split
  · exact .throw trivial
  · exact .modify _

theorem mayRefuse_apply (c : Command) : MayRefuse (apply c) := by
  cases c with
  | init locality => exact mayRefuse_initRegisters locality
  | extend pcr a digest =>
      refine Ensures.get.bind fun t _ => ?_
      refine (mayRefuse_attempt (t.ofCommand_value pcr a)).bind fun old _ => ?_
      refine (mayRefuse_onData (onData_hashBytes a _)).bind fun new _ => ?_
      exact mayRefuse_setValue pcr a new
  | logEvent e => exact .modify _

theorem ofCommand_replay (cs : List Command) (locality : Int) (a : Algorithm) :
    FaultsWithin Fault.OfCommand (replay cs locality a) := by
  have hrun : MayRefuse (applyAll (.init locality :: cs)) := .forM fun c _ => mayRefuse_apply c
  unfold replay
  have h := hrun (fresh [a])
  split
  · exact ofCommand_value _ 0 a
  · rename_i f t heq
    rw [heq] at h
    exact .error h

end Tpm
end MeasuredBoot
