import MeasuredBoot.Proofs.Action.Calm
import MeasuredBoot.Proofs.Step.Limits
import MeasuredBoot.Proofs.Step.Pcr0Data

/-!
# What a step will do

All that the conditions of steps depend on is what can be found out about the firmware image, and whether
the TPM was started. From these the effect of a step can be told before it is executed: it is calm, it names
who runs, it starts the TPM, it leaves for another flow, or it panics. A step that would use a TPM which was
not started, or start one that was, is beyond what is told here.
-/
namespace MeasuredBoot

/-- What can be found out about a firmware image: which conditions hold of it. -/
structure Findings where
  fit : Bool
  bootPolicy : Bool
  codeModuleValid : Bool
  keyManifestValid : Bool
  bootPolicyValid : Bool
  bootBlockValid : Bool
  manifest : Bool
  pspDirectoryValid : Bool
  biosDirectoryValid : Bool
  ocpV0 : Bool
  ocpV1 : Bool

namespace Findings

def of (image : Option BiosImage) : Findings :=
  let s : State := { biosImage := image }
  { fit := Condition.fitPresent.holds s
    bootPolicy := Condition.bootPolicyPresent.holds s
    codeModuleValid := Condition.validCodeModule.holds s
    keyManifestValid := Condition.validKeyManifest.holds s
    bootPolicyValid := Condition.validBootPolicy.holds s
    bootBlockValid := Condition.validInitialBootBlock.holds s
    manifest := Condition.manifestPresent.holds s
    pspDirectoryValid := Condition.validPspDirectory.holds s
    biosDirectoryValid := Condition.validBiosDirectory.holds s
    ocpV0 := Condition.ocpV0.holds s
    ocpV1 := Condition.ocpV1.holds s }

/-- Whether a condition holds, as told by the findings and by the start of the TPM. -/
def holds (f : Findings) (started : Option Int) : Condition → Bool
  | .not c => !f.holds started c
  | .fitPresent => f.fit
  | .bootPolicyPresent => f.bootPolicy
  | .validCodeModule => f.codeModuleValid
  | .validKeyManifest => f.keyManifestValid
  | .validBootPolicy => f.bootPolicyValid
  | .validInitialBootBlock => f.bootBlockValid
  | .manifestPresent => f.manifest
  | .validPspDirectory => f.pspDirectoryValid
  | .validBiosDirectory => f.biosDirectoryValid
  | .tpmInitialized => started.isSome
  | .ocpV0 => f.ocpV0
  | .ocpV1 => f.ocpV1

end Findings

namespace Step

/-- What a step will do. -/
inductive Effect where
  | calm
  | enters (a : Actor)
  | starts (locality : Int)
  | leaves (f : FlowRef)
  | panics
  | unclear

def effectOfUse (started : Option Int) : Effect := if started.isSome then .calm else .unclear

def effectOfStart (started : Option Int) (locality : Int) : Effect :=
  if started.isNone && 0 ≤ locality && locality ≤ 255 then .starts locality else .unclear

/-- What a step will do on a machine with an image and a TPM of which so much is known. -/
def effect (f : Findings) (started : Option Int) : Step → Effect
  | setActor a => .enters a
  | setFlow g => .leaves g
  | panic _ => .panics
  | whenHolds c s => if f.holds started c then s.effect f started else .calm
  | choose c s other => if f.holds started c then s.effect f started else other.effect f started
  | initTpm locality _ => effectOfStart started locality
  | initTpmLazily locality => if started.isSome then .calm else effectOfStart started locality
  | measure .. => effectOfUse started
  | verify subject fallback => if f.holds started subject.condition then .calm else .leaves fallback
  | measurePcr0Data => effectOfUse started
  | psp _ => effectOfUse started
  | broken _ => .unclear
  | script _ => .unclear

theorem isMeasurePcr0Data_iff {step : Step} :
    step.isMeasurePcr0Data = true ↔ step = .measurePcr0Data := by
  cases step <;> simp [isMeasurePcr0Data]

/-! ## Faults while actions are produced -/

section Faults
variable (s : State)

theorem onData_pcr0Actions (i : BiosImage) (common : References) (bpm : BootPolicy) (a : Algorithm) :
    OnData (pcr0Actions i common bpm a) := by
  unfold pcr0Actions
  split
  · exact .ok _
  · exact (Data.onData_converted _).bind fun _ _ => .ok _

theorem onData_pcr0DataActions : OnData (pcr0DataActions s) := by
  unfold pcr0DataActions
  split
  · exact .ok _
  · exact .ok _
  · simp only
    split
    · exact .ok _
    · split
      · exact .ok _
      · exact FaultsWithin.bind (.mapM fun a _ => onData_pcr0Actions _ _ _ a) fun _ _ => .ok _

theorem onData_measureEachRange (source : Source) (name : String) :
    OnData (measureEachRange s source name) := by
  have hresolve := Source.onData_resolve s source
  unfold measureEachRange
  split
  · rename_i f hf
    split
    · exact .ok _
    · exact .error (hresolve f hf)
  · exact .ok _

theorem onData_pspActions (m : PspMeasurement) : OnData (pspActions s m) := by
  cases m with
  | version => exact .ok _
  | messageRegisters => exact .ok _
  | embeddedFirmware => exact .ok _
  | biosDirectory => exact onData_measureEachRange s _ _
  | rtmVolume => exact onData_measureEachRange s _ _
  | microcodePatch => exact onData_measureEachRange s _ _
  | videoInterpreter => exact onData_measureEachRange s _ _
  | pmuFirmware =>
      refine (onData_measureEachRange s _ _).bind fun _ _ => ?_
      exact (onData_measureEachRange s _ _).bind fun _ _ => .ok _

theorem onData_localityEvents (locality : Int) : OnData (localityEvents s locality) := by
  unfold localityEvents
  split
  · exact .error trivial
  · exact .mapM fun a _ => (onData_digestSize a).bind fun _ _ => .ok _

end Faults

/-! ## Calm actions -/

section Calm
variable {started : Option Int} {s : State}

def AllCalm (started : Option Int) (actions : List Action) : Prop :=
  ∀ a ∈ actions, a.isCalm started = true

theorem allCalm_singleton {a : Action} (h : a.isCalm started = true) : AllCalm started [a] := by
  intro x hx
  rwa [List.mem_singleton.mp hx]

theorem allCalm_pcr0Data (hstarted : started.isSome = true) {actions : List Action}
    (h : pcr0DataActions s = .ok actions) : AllCalm started actions := by
  intro a ha
  cases isDataAction_of_mem h a ha with
  | panic reason => rfl
  | extend t rs b => exact hstarted
  | logEvent b digest data => exact hstarted

theorem allCalm_psp (hstarted : started.isSome = true) {m : PspMeasurement} {actions : List Action}
    (h : pspActions s m = .ok actions) : AllCalm started actions := by
  intro a ha
  cases isPspAction_of_mem h a ha with
  | panic reason => rfl
  | measure hplain data => exact hstarted

theorem isCalm_of_subject (subject : Subject) : subject.action.isCalm started = true := by
  cases subject <;> rfl

theorem exists_localityEvents {t : Tpm} {locality : Int} (ht : s.tpm = some t)
    (hcomputable : Tpm.Computable t.algorithms) (hlow : 0 ≤ locality) (hhigh : locality ≤ 255) :
    ∃ events, localityEvents s locality = .ok events ∧ AllCalm (some locality) events := by
  have hfits : ¬ (locality < 0 ∨ 255 < locality) := by omega
  have hevents : localityEvents s locality = t.algorithms.mapM (localityEvent locality) := by
    unfold localityEvents
    rw [if_neg hfits, ht]
    rfl
  obtain ⟨events, hok⟩ : ∃ events, t.algorithms.mapM (localityEvent locality) = .ok events := by
    apply exists_mapM_of_ok
    intro a ha
    obtain ⟨f, hf⟩ := Option.isSome_iff_exists.mp (hcomputable a ha)
    rw [localityEvent, digestSize, hf]
    exact ⟨_, rfl⟩
  refine ⟨events, hevents.trans hok, fun x hx => ?_⟩
  obtain ⟨a, digest, data, rfl⟩ := exists_of_mem_localityEvents (hevents.trans hok) hx
  rfl

end Calm

/-! ## Effects -/

/-- What the actions of a step are if the step has some effect. -/
def Effect.Describes (started : Option Int) : Effect → Except Fault (List Step.Produced) → Prop
  | .calm, x => FaultsWithin Fault.Timely x ∧
      ∀ produced, x = .ok produced → ∀ p ∈ produced, p.2.isCalm started = true
  | .enters a, x => x = .ok (newly [.setActor a])
  | .starts locality, x => started = none ∧ 0 ≤ locality ∧ locality ≤ 255 ∧
      ∃ events, x = .ok (newly (.tpmInit locality :: events)) ∧ AllCalm (some locality) events
  | .leaves f, x => x = .ok (newly [.setFlow f])
  | .panics, x => ∃ reason, x = .ok (newly [.panic reason])
  | .unclear, _ => True

theorem describes_calm {started : Option Int} {x : Except Fault (List Action)} (hx : OnData x)
    (h : ∀ actions, x = .ok actions → AllCalm started actions) :
    Effect.Describes started .calm (newly <$> x) := by
  refine ⟨timely_of_onData (hx.map newly), fun produced hproduced p hp => ?_⟩
  cases hcase : x with
  | error f =>
      rw [hcase] at hproduced
      cases hproduced
  | ok actions =>
      rw [hcase] at hproduced
      cases hproduced
      obtain ⟨a, ha, rfl⟩ := List.mem_map.mp hp
      exact h actions hcase a ha

theorem describes_nothing (started : Option Int) : Effect.Describes started .calm (.ok []) := by
  refine ⟨.ok _, ?_⟩
  rintro produced ⟨⟩ p hp
  cases hp

section Describes
variable {flow : FlowRef} {position : Int} {image : Option BiosImage} {algorithms : List Algorithm}
  {started : Option Int} {s : State}

theorem holds_eq_findings (hs : s.AtStep flow position image algorithms started) (c : Condition) :
    c.holds s = (Findings.of image).holds started c := by
  have himage := hs.image
  subst himage
  induction c with
  | not c ih => rw [Condition.holds, Findings.holds, ih]
  | tpmInitialized =>
      obtain ⟨t, ht, hstarted⟩ := hs.tpm
      rw [Condition.holds, Findings.holds, ht, Option.any_some, hstarted.isInitialized_eq]
  | _ => rfl

theorem describes_use {x : Except Fault (List Action)} (hx : OnData x)
    (h : started.isSome = true → ∀ actions, x = .ok actions → AllCalm started actions) :
    (effectOfUse started).Describes started (newly <$> x) := by
  unfold effectOfUse
  split
  · rename_i hstarted
    exact describes_calm hx (h hstarted)
  · trivial

theorem describes_start {locality : Int} {x : Except Fault (List Produced)}
    (h : started = none → 0 ≤ locality → locality ≤ 255 →
      ∃ events, x = .ok (newly (.tpmInit locality :: events)) ∧ AllCalm (some locality) events) :
    (effectOfStart started locality).Describes started x := by
  unfold effectOfStart
  split
  · rename_i hfits
    simp only [Bool.and_eq_true, Option.isNone_iff_eq_none, decide_eq_true_eq] at hfits
    obtain ⟨⟨hnone, hlow⟩, hhigh⟩ := hfits
    exact ⟨hnone, hlow, hhigh, h hnone hlow hhigh⟩
  · trivial

/-- The actions of a step are as its effect tells. -/
theorem describes_effect (hs : s.AtStep flow position image algorithms started)
    (hcomputable : Tpm.Computable algorithms) (step : Step) :
    (step.effect (Findings.of image) started).Describes started (step.actions s) := by
  induction step with
  | setActor a => exact rfl
  | setFlow g => exact rfl
  | panic reason => exact ⟨reason, rfl⟩
  | whenHolds c inner ih =>
      rw [effect, actions, holds_eq_findings hs]
      split
      · exact ih
      · exact describes_nothing started
  | choose c inner other ih ihother =>
      rw [effect, actions, holds_eq_findings hs]
      split
      · exact ih
      · exact ihother
  | initTpm locality logged =>
      rw [effect]
      refine describes_start fun hnone hlow hhigh => ?_
      cases logged with
      | false => exact ⟨[], rfl, fun a ha => absurd ha List.not_mem_nil⟩
      | true =>
          obtain ⟨t, ht, hstarted⟩ := hs.tpm
          rw [← hstarted.algorithms_eq] at hcomputable
          obtain ⟨events, hevents, hcalm⟩ := exists_localityEvents ht hcomputable hlow hhigh
          refine ⟨events, ?_, hcalm⟩
          rw [actions, hevents]
          rfl
  | initTpmLazily locality =>
      rw [effect, actions, holds_eq_findings hs, Findings.holds]
      split
      · exact describes_nothing started
      · exact describes_start fun _ _ _ => ⟨[], rfl, fun a ha => absurd ha List.not_mem_nil⟩
  | measure pcr type source description =>
      refine describes_use (x := .ok [.measure pcr source type description]) (.ok _) fun hstarted => ?_
      rintro actions ⟨⟩
      exact allCalm_singleton hstarted
  | verify subject fallback =>
      rw [effect, actions, holds_eq_findings hs]
      split
      · refine describes_calm (x := .ok [subject.action]) (.ok _) ?_
        rintro actions ⟨⟩
        exact allCalm_singleton (isCalm_of_subject subject)
      · exact rfl
  | measurePcr0Data =>
      exact describes_use (onData_pcr0DataActions s) fun hstarted _ h => allCalm_pcr0Data hstarted h
  | psp m => exact describes_use (onData_pspActions s m) fun hstarted _ h => allCalm_psp hstarted h
  | broken message => trivial
  | script items => trivial

end Describes

end Step
end MeasuredBoot
