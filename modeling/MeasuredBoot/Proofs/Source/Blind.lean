import MeasuredBoot.Source.Resolve

/-!
# Sources that do not see the public space

A source is blind if it reads nothing of the public space, also not through the sources that it combines. In
states that differ only there, and in what their TPMs hold, a blind source yields the same data or the same
fault, and every condition has the same answer.
-/
namespace MeasuredBoot

/-- Two states with the same image and registers of the security processor, whose TPMs support the same
algorithms and are both initialised or both not. -/
structure State.Alike (s s' : State) : Prop where
  image : s'.biosImage = s.biosImage
  registers : s'.amdRegisters = s.amdRegisters
  algorithms : s'.tpm.map Tpm.algorithms = s.tpm.map Tpm.algorithms
  initialized : s'.tpm.any Tpm.isInitialized = s.tpm.any Tpm.isInitialized

namespace Source

mutual

/-- True of a source that reads nothing of the public space. -/
def isBlind : Source → Bool
  | concat parts => allBlind parts
  | merged inner => isBlind inner
  | volumeOf inner => isBlind inner
  | acmPolicyStatus => false
  | _ => true

def allBlind : List Source → Bool
  | [] => true
  | part :: rest => isBlind part && allBlind rest

end

end Source

section Alike
variable {s s' : State}

theorem Condition.holds_eq (h : s.Alike s') (c : Condition) : c.holds s' = c.holds s := by
  induction c with
  | not c ih => rw [holds, holds, ih]
  | tpmInitialized => exact h.initialized
  | _ => simp only [holds, intel?, amd?, bootPolicy?, h.image]

namespace Source

mutual

theorem resolve_eq (h : s.Alike s') (source : Source) (hblind : source.isBlind = true) :
    source.resolve s' = source.resolve s := by
  cases source with
  | acmPolicyStatus => cases hblind
  | concat parts => rw [resolve, resolve, resolveAll_eq h parts hblind]
  | merged inner => rw [resolve, resolve, resolve_eq h inner hblind]
  | volumeOf inner => simp only [resolve, State.image, h.image, resolve_eq h inner hblind]
  | firmwareVariable name => simp only [resolve, variableData, Condition.holds_eq h]
  | messageRegisters => simp only [resolve, messageRegistersData, State.registers, h.registers]
  | fixed d => simp only [resolve]
  | _ => simp only [resolve, intelImage, amdImage, State.image, h.image]

theorem resolveAll_eq (h : s.Alike s') (parts : List Source) (hblind : allBlind parts = true) :
    resolveAll s' parts = resolveAll s parts := by
  cases parts with
  | nil => simp only [resolveAll]
  | cons part rest =>
      obtain ⟨hpart, hrest⟩ := Bool.and_eq_true_iff.mp hblind
      rw [resolveAll, resolveAll, resolve_eq h part hpart, resolveAll_eq h rest hrest]

end

end Source
end Alike
end MeasuredBoot
