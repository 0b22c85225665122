import MeasuredBoot.Proofs.Action.Issued
import MeasuredBoot.Proofs.Tpm.Replay

/-!
# A TPM that is started once

A TPM with algorithms that can be computed is fresh, or it was started by the first of its commands and by
no other. A fresh one accepts to be started, at any locality that fits into a byte. One that was started
stays so under all other commands, and it never refuses one of them for not being initialised.
-/
namespace MeasuredBoot

/-- True of a fault that does not blame the time at which a TPM was used. -/
def Fault.Timely : Fault → Prop
  | .tpm .alreadyInitialized | .tpm (.notInitialized _ _) => False
  | _ => True

theorem Fault.timely_iff {f : Fault} :
    f.Timely ↔ f ≠ .tpm .alreadyInitialized ∧ ∀ pcr a, f ≠ .tpm (.notInitialized pcr a) := by
  unfold Timely
  split
  · simp
  · simp
  · rename_i halready huninitialized
    exact iff_of_true trivial ⟨halready, huninitialized⟩

theorem Fault.Timely.of_ofData {f : Fault} (h : f.OfData) : f.Timely := by
  cases f with
  | tpm f =>
      cases f with
      | alreadyInitialized => cases h
      | notInitialized pcr a => cases h
      | _ => trivial
  | _ => trivial

theorem timely_of_onData {α : Type} {x : Except Fault α} (h : OnData x) : FaultsWithin Fault.Timely x :=
  h.mono fun _ => .of_ofData

namespace Tpm

def starts : Command → Bool
  | .init _ => true
  | _ => false

/-- A TPM with some algorithms that is fresh, or that was started at a locality by its first command. -/
def StartedAt (algorithms : List Algorithm) : Option Int → Tpm → Prop
  | none, t => t = fresh algorithms
  | some locality, t => t.algorithms = algorithms ∧ t.isInitialized = true ∧
      ∃ rest, t.commandList = .init locality :: rest ∧ ∀ c ∈ rest, starts c = false

variable {algorithms : List Algorithm} {locality : Int} {t : Tpm}

theorem StartedAt.algorithms_eq {started : Option Int} (h : StartedAt algorithms started t) :
    t.algorithms = algorithms := by
  cases started with
  | none =>
      rw [show t = fresh algorithms from h]
      rfl
  | some l => exact h.1

theorem StartedAt.isInitialized_eq {started : Option Int} (h : StartedAt algorithms started t) :
    t.isInitialized = started.isSome := by
  cases started with
  | none =>
      rw [show t = fresh algorithms from h]
      rfl
  | some l => exact h.2.1

/-! ## Commands of a started TPM -/

theorem timely_obstacle {pcr : Int} {a : Algorithm} {f : TpmFault} (hinitialized : t.isInitialized = true)
    (h : t.obstacle? pcr a = some f) : (Fault.tpm f).Timely := by
  unfold obstacle? at h
  rw [hinitialized] at h
  split at h
  · cases h
    trivial
  · split at h
    · cases h
      trivial
    · cases h

theorem timely_value {pcr : Int} {a : Algorithm} (hinitialized : t.isInitialized = true) :
    FaultsWithin Fault.Timely (t.value pcr a) := by
  unfold value
  split
  · rename_i f hf
    exact .error (timely_obstacle hinitialized hf)
  · split
    · exact .ok _
    · exact .error trivial

def Ready (algorithms : List Algorithm) (t : Tpm) : Prop :=
  t.algorithms = algorithms ∧ t.isInitialized = true

theorem keeps_apply {c : Command} (hc : starts c = false) :
    Keeps (Ready algorithms) Fault.Timely (apply c) := by
  cases c with
  | init locality => cases hc
  | logEvent e => exact .modify fun t ht => ht
  | extend pcr a digest =>
      refine .get_bind fun t ht => .attempt_bind (timely_value ht.2) fun old _ => ?_
      refine .attempt_bind (timely_of_onData (onData_hashBytes a _)) fun new _ => ?_
      refine .get_bind fun t ht => ?_
      cases hobstacle : t.obstacle? pcr a with
      | some f => exact .throw (timely_obstacle ht.2 hobstacle)
      | none =>
          refine .modify fun t ht => ⟨ht.1, ?_⟩
          rw [isInitialized, Bool.not_eq_true', List.isEmpty_eq_false_iff]
          exact put_ne_nil _ _ _

theorem keeps_execute {r : CommandRecord} (hr : starts r.command = false) :
    Keeps (StartedAt algorithms (some locality)) Fault.Timely (execute r) where
  stays := by
    rintro t ⟨halgorithms, hinitialized, rest, hlog, hrest⟩
    have hready : Ready algorithms (after (execute r) t) := (keeps_apply hr).stays
      { t with commands := t.commands.push r } ⟨halgorithms, hinitialized⟩
    refine ⟨hready.1, hready.2, rest ++ [r.command], ?_, ?_⟩
    · rw [commandList_of_push (commands_after_execute r t), hlog]
      rfl
    · intro c hc
      rcases List.mem_append.mp hc with hc | hc
      · exact hrest c hc
      · rwa [List.mem_singleton.mp hc]
  faults := by
    rintro t ⟨halgorithms, hinitialized, -⟩ f u hf
    exact (keeps_apply hr).faults { t with commands := t.commands.push r } ⟨halgorithms, hinitialized⟩ f u hf

/-! ## The start -/

def Computable (algorithms : List Algorithm) : Prop := ∀ a ∈ algorithms, a.function?.isSome = true

theorem returns_initAlgorithm {a : Algorithm} (ha : a.function?.isSome = true) (hlow : 0 ≤ locality)
    (hhigh : locality ≤ 255) : Returns (initAlgorithm locality a) () := by
  obtain ⟨f, hf⟩ := Option.isSome_iff_exists.mp ha
  exact fun t => ⟨_, initAlgorithm_eq hf (EventLog.startValue_eq f.digestSize hlow hhigh) t⟩

theorem exists_started {r : CommandRecord} (hr : r.command = .init locality)
    (hcomputable : Computable algorithms) (hsome : algorithms ≠ []) (hlow : 0 ≤ locality)
    (hhigh : locality ≤ 255) :
    ∃ u, execute r (fresh algorithms) = .ok () u ∧ StartedAt algorithms (some locality) u := by
  have hreturns : Returns (algorithms.forM (initAlgorithm locality)) () :=
    .forM fun a ha => returns_initAlgorithm (hcomputable a ha) hlow hhigh
  obtain ⟨u, hu⟩ := hreturns { fresh algorithms with commands := #[r] }
  have hexecuted : execute r (fresh algorithms) = .ok () u := by
    have heq : execute r (fresh algorithms) =
        apply (.init locality) { fresh algorithms with commands := #[r] } := by
      rw [← hr]
      rfl
    rw [heq]
    exact hu
  obtain ⟨hcommands, halgorithms, hfollows⟩ := execute_of_ok hexecuted
  rw [hr] at hfollows
  refine ⟨u, hexecuted, halgorithms, ?_, [], ?_, ?_⟩
  · rw [isInitialized_of_follows hfollows, initializedAfter, Bool.not_eq_true', List.isEmpty_eq_false_iff]
    exact hsome
  · rw [commandList_of_push hcommands, hr]
    rfl
  · exact fun c hc => absurd hc List.not_mem_nil

end Tpm
end MeasuredBoot
