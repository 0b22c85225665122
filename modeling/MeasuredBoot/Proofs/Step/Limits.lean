import MeasuredBoot.Proofs.Source.Blind
import MeasuredBoot.Proofs.Step.Produced

/-!
# Limits of steps

Which actions a step may produce is bounded by its text: the flows to which it may switch, the localities
at which it may start the TPM, whether it may measure, and whether what it measures may depend on the
public space. A step within limits produces actions within the same limits in every state, and if it does
not depend on the public space it produces the same actions in states that differ only there.
-/
namespace MeasuredBoot

/-- What a step may do: the flows to which it may switch, and whether it may measure. -/
structure Limits where
  target : FlowRef → Bool
  measures : Bool

/-- The localities at which a TPM is started. -/
def isStartLocality (locality : Int) : Bool := locality = 0 || locality = 3

def Action.within (l : Limits) : Action → Bool
  | setFlow f => l.target f
  | tpmInit locality => isStartLocality locality
  | tpmExtend _ source _ => l.measures && source.isPlain
  | measure _ source _ _ => l.measures && source.isPlain
  | _ => true

def Step.within (l : Limits) : Step → Bool
  | setFlow f => l.target f
  | whenHolds _ s => s.within l
  | choose _ s other => s.within l && other.within l
  | initTpm locality _ => isStartLocality locality
  | initTpmLazily locality => isStartLocality locality
  | measure _ _ source _ => l.measures && source.isPlain
  | verify _ fallback => l.target fallback
  | measurePcr0Data => false
  | psp _ => l.measures
  | script items => items.all fun x => x.action.within l
  | _ => true

/-! ## Actions within limits -/

namespace Step
variable {l : Limits} {s : State}

def ProducedWithin (l : Limits) (produced : List Produced) : Prop :=
  ∀ x ∈ produced, x.2.within l = true

theorem within_of_produces {step : Step} {x : Action} (h : step.Produces x)
    (hstep : step.within l = true) : x.within l = true := by
  induction h with
  | setActor a => rfl
  | setFlow f => exact hstep
  | panic reason => rfl
  | inner _ ih => exact ih hstep
  | first _ ih => exact ih (Bool.and_eq_true_iff.mp hstep).1
  | second _ ih => exact ih (Bool.and_eq_true_iff.mp hstep).2
  | start locality logged => exact hstep
  | announce locality a digest data => rfl
  | startLazily locality => exact hstep
  | measure pcr type source description => exact hstep
  | verified subject fallback => cases subject <;> rfl
  | unverified subject fallback => exact hstep
  | data hx => cases hstep
  | psp m hx =>
      cases hx with
      | panic reason => rfl
      | measure hplain data => exact Bool.and_eq_true_iff.mpr ⟨hstep, hplain⟩
  | scripted hitem => exact List.all_eq_true.mp hstep _ hitem

theorem actions_within {step : Step} (hstep : step.within l = true) {produced : List Produced}
    (h : step.actions s = .ok produced) : ProducedWithin l produced :=
  fun x hx => within_of_produces (produces_of_mem h x hx) hstep

end Step

theorem Step.isMeasurePcr0Data_of_within {l : Limits} {step : Step} (h : step.within l = true) :
    step.isMeasurePcr0Data = false := by
  cases step with
  | measurePcr0Data => cases h
  | _ => rfl

/-! ## Steps that do not see the public space -/

/-- An action none of whose sources sees the public space. -/
def Action.isBlind : Action → Bool
  | tpmExtend _ source _ => source.isBlind
  | measure _ source _ _ => source.isBlind
  | verifyByPch source => source.isBlind
  | verifyByPsp source => source.isBlind
  | _ => true

def Step.isBlind : Step → Bool
  | whenHolds _ s => s.isBlind
  | choose _ s other => s.isBlind && other.isBlind
  | measure _ _ source _ => source.isBlind
  | measurePcr0Data => false
  | script items => items.all fun x => x.action.isBlind
  | _ => true

theorem Source.isBlind_of_isPlain {source : Source} (h : source.isPlain = true) :
    source.isBlind = true := by
  cases source with
  | concat parts => cases h
  | merged inner => cases h
  | volumeOf inner => cases h
  | acmPolicyStatus => cases h
  | _ => rfl

theorem Step.isBlind_of_produces {step : Step} {x : Action} (h : step.Produces x)
    (hstep : step.isBlind = true) : x.isBlind = true := by
  induction h with
  | inner _ ih => exact ih hstep
  | first _ ih => exact ih (Bool.and_eq_true_iff.mp hstep).1
  | second _ ih => exact ih (Bool.and_eq_true_iff.mp hstep).2
  | measure pcr type source description => exact hstep
  | verified subject fallback => cases subject <;> rfl
  | data hx => cases hstep
  | psp m hx =>
      cases hx with
      | panic reason => rfl
      | measure hplain data => exact Source.isBlind_of_isPlain hplain
  | scripted hitem => exact List.all_eq_true.mp hstep _ hitem
  | _ => rfl

/-! ## States that differ in the public space -/

section Alike
variable {s s' : State} (h : s.Alike s')
include h

namespace Step

theorem localityEvents_eq (locality : Int) : localityEvents s' locality = localityEvents s locality := by
  simp only [localityEvents, h.algorithms]

theorem measureEachRange_eq {source : Source} (hblind : source.isBlind = true) (name : String) :
    measureEachRange s' source name = measureEachRange s source name := by
  simp only [measureEachRange, Source.resolve_eq h source hblind]

theorem pspActions_eq (m : PspMeasurement) : pspActions s' m = pspActions s m := by
  cases m with
  | version => rfl
  | messageRegisters => rfl
  | embeddedFirmware => rfl
  | biosDirectory => exact measureEachRange_eq h rfl _
  | rtmVolume => exact measureEachRange_eq h rfl _
  | microcodePatch => exact measureEachRange_eq h rfl _
  | videoInterpreter => exact measureEachRange_eq h rfl _
  | pmuFirmware =>
      have hentries (type : Int) (name : String) : measureEntries s' type name = measureEntries s type name :=
        measureEachRange_eq h rfl name
      simp only [pspActions, hentries]

/-- A step within limits produces the same actions in both states. -/
theorem actions_eq {l : Limits} {step : Step} (hstep : step.within l = true) :
    step.actions s' = step.actions s := by
  induction step with
  | whenHolds c inner ih => simp only [actions, Condition.holds_eq h, ih hstep]
  | choose c inner other ih ihother =>
      obtain ⟨hinner, hother⟩ := Bool.and_eq_true_iff.mp hstep
      simp only [actions, Condition.holds_eq h, ih hinner, ihother hother]
  | initTpm locality logged =>
      cases logged with
      | false => rfl
      | true => simp only [actions, localityEvents_eq h]
  | initTpmLazily locality => simp only [actions, Condition.holds_eq h]
  | verify subject fallback => simp only [actions, Condition.holds_eq h]
  | psp m => simp only [actions, pspActions_eq h]
  | measurePcr0Data => cases hstep
  | _ => simp only [actions]

end Step
end Alike
end MeasuredBoot
