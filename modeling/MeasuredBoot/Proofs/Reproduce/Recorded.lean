import MeasuredBoot.Proofs.Boot.Logged
import MeasuredBoot.Proofs.Reproduce.Completeness
import MeasuredBoot.Proofs.Step.Pcr0Data

/-!
# Reproducing recorded logs

A log is recorded if a run wrote it from its first command on. Whatever flows were run, the measurements
of a recorded log are legible: the step at the place of a measurement is the one that issued it, and the
step that measures the data with the register computes the digest of what it refers to. So over recorded
logs the search never fails, and its answer is the first admissible one.
-/
namespace MeasuredBoot.Pcr0

/-- The states to which runs lead, one after another, from a state whose TPM was given no command. -/
inductive Driven (flows : FlowCatalog) : State → Prop
  | unused {s : State} : (∀ t, s.tpm = some t → t.commands = #[]) → Driven flows s
  | run {s : State} {flow : FlowRef} {maxSteps : Int} {b : Boot} : Driven flows s →
      Boot.Reaches flows (Boot.ofFlow s flow maxSteps) b → Driven flows b.state

/-- The command logs that runs record. -/
def Recorded (flows : FlowCatalog) (records : List CommandRecord) : Prop :=
  ∃ s t, Driven flows s ∧ s.tpm = some t ∧ t.commands.toList = records

/-! ## Recorded measurements are legible -/

theorem isDataMeasurement_of_step {flows : FlowCatalog} {flow : FlowRef} {k : Nat} {step : Step}
    (h : (flows.steps flow)[k]? = some step) (c : Command) (i : Int) (cause : Option IssuedAction) :
    isDataMeasurement flows ⟨c, some ⟨some flow, k, i⟩, cause⟩ = .ok step.isMeasurePcr0Data := by
  have hnonneg : (0 : Int) ≤ k := Int.natCast_nonneg k
  have hstep : flows.stepAt ⟨some flow, k, i⟩ = .ok step := by
    simp only [FlowCatalog.stepAt, FlowCatalog.itemAt?, if_pos hnonneg, Int.toNat_natCast, h]
  have hplace : ¬ ((some flow).isNone = true ∨ (k : Int) < 0) := by
    simp only [Option.isNone_some, Bool.false_eq_true, false_or]
    omega
  simp only [isDataMeasurement, if_neg hplace, hstep, ok_bind]
  rfl

theorem measuresRegister_of_mayIssue {action : Action} (h : Step.IsDataAction action) {c : Command}
    (hc : action.MayIssue c) (place : Option Coordinates) (identity : ActionIdentity) {a : Algorithm}
    (hmeasured : IsExtend a c) : MeasuresRegister ⟨c, place, some ⟨identity, action⟩⟩ := by
  cases h with
  | panic reason => cases hc
  | logEvent b digest data =>
      obtain ⟨digest, rfl⟩ := hmeasured
      cases hc
  | extend t rs b =>
      obtain ⟨digest, rfl, hdigest⟩ := hc
      obtain ⟨data, hdata, hhash⟩ := Data.converted_referenced.mp (hdigest _ rfl)
      obtain ⟨register, rest, hregister, -, rfl⟩ := References.read_cons_eq_ok_iff.mp hdata
      have h8 := Step.length_of_read_policyStatus hregister
      refine ⟨b, register ++ rest, register, digest, rfl, ?_, h8, ?_, hhash⟩
      · simp only [dataOf, Option.map_some, Data.references, Data.raw, hdata, hregister, ok_bind]
        rfl
      · rw [← h8, List.take_left]

theorem writable_legible (flows : FlowCatalog) :
    Boot.Writable flows fun r => ∀ a, IsExtend a r.command → Legible flows r := by
  intro flow k step hstep s x hx identity i c hc a hmeasured
  have his := isDataMeasurement_of_step hstep c i (some ⟨identity, x.2⟩)
  cases hdata : step.isMeasurePcr0Data with
  | false => exact Or.inl (his.trans (congrArg _ hdata))
  | true =>
      refine Or.inr ⟨his.trans (congrArg _ hdata), ?_⟩
      have hactions : Step.IsDataAction x.2 := by
        cases step with
        | measurePcr0Data =>
            cases hproduced : Step.pcr0DataActions s with
            | error f =>
                simp only [Boot.produce, Step.actions, hproduced, map_error] at hx
                cases hx
            | ok actions =>
                simp only [Boot.produce, Step.actions, hproduced, map_ok] at hx
                obtain ⟨action, haction, rfl⟩ := List.mem_map.mp hx
                exact Step.isDataAction_of_mem hproduced action haction
        | _ => cases hdata
      exact measuresRegister_of_mayIssue hactions hc _ identity hmeasured

theorem legible_of_driven {flows : FlowCatalog} {s : State} (h : Driven flows s) :
    s.LogAll fun r => ∀ a, IsExtend a r.command → Legible flows r := by
  induction h with
  | unused hempty =>
      intro t ht r hr
      rw [hempty t ht] at hr
      cases hr
  | run _ hreaches ih =>
      refine (Boot.reaches_logged (writable_legible flows) hreaches ⟨ih, ?_⟩).1
      exact Int.le_refl _

theorem legibleAll_of_recorded {flows : FlowCatalog} {records : List CommandRecord}
    (h : Recorded flows records) (a : Algorithm) : LegibleAll flows a (measurements records a) := by
  obtain ⟨s, t, hdriven, ht, rfl⟩ := h
  intro r hr
  obtain ⟨hmem, hmeasured⟩ := List.mem_filter.mp hr
  have hextend := isExtend_of_isMeasurement hmeasured
  exact ⟨hextend, legible_of_driven hdriven t ht r hmem a hextend⟩

/-! ## The answer of the search -/

section Recorded
variable {flows : FlowCatalog} {records : List CommandRecord} (h : Recorded flows records)
  {a : Algorithm} {f : HashFunction} (hf : a.function? = some f) {bounds : Pcr0Bounds}
  (hflips : bounds.combinatorial = true → 0 ≤ bounds.maxFlips) (expected : Bytes)
include h hf hflips

/-- Over a recorded log the search ends with an answer. It answers nothing just if no admissible
corrections lead to the expected digest; otherwise it answers admissible corrections that do, and they
precede all others. -/
theorem reproduce_complete :
    ∃ found, Returns (reproduce flows records a expected bounds) found ∧
      (found = none ↔ ∀ c, Admissible flows bounds records a c → ¬ Reproduces records a expected c) ∧
      ∀ c, found = some c → IsFirst flows bounds records a expected c :=
  reproduce_of_legible hf hflips (legibleAll_of_recorded h a) expected

end Recorded

/-! ### A recorded log -/

/-- An image of eight bytes, of which the structures of the verified boot are one or two bytes each. -/
def sampleImage : BiosImage where
  content := ⟨#[1, 2, 3, 4, 5, 6, 7, 8]⟩
  regions := none
  nodes := []
  intel := some {
    fit := []
    codeModule := some ⟨0xFFFFFFF8, ⟨0, 2⟩, ⟨2, 1⟩, true⟩
    keyManifest := some ⟨0xFFFFFFFB, ⟨0, 1⟩, true⟩
    bootPolicy := some ⟨0xFFFFFFFC, ⟨0, 1⟩, [],
      [⟨.sha1, 0xFFFFFFFD, [6]⟩, ⟨.sha256, 0xFFFFFFFE, [7]⟩], true, true⟩ }
  amd := none

def sampleFlow : FlowRef := ⟨.supplied, "Sample"⟩

def sampleFlows : FlowCatalog := ⟨[⟨"Sample", [.initTpm 3 false, .measurePcr0Data]⟩]⟩

def sampleState : State where
  biosImage := some sampleImage
  txtPublic := some (TxtPublic.ofList [Register.acmPolicyStatus 5])
  tpm := some (Tpm.fresh [.sha1, .sha256])

def sampleRun : Boot :=
  after (Boot.nextStep sampleFlows) (after (Boot.nextStep sampleFlows)
    (Boot.ofFlow sampleState sampleFlow 2))

def sampleRecords : List CommandRecord := (sampleRun.state.tpm.map fun t => t.commands.toList).getD []

theorem recorded_sample : Recorded sampleFlows sampleRecords := by
  have hreaches : Boot.Reaches sampleFlows (Boot.ofFlow sampleState sampleFlow 2) sampleRun :=
    Boot.Reaches.start.after.after
  have hunused : Driven sampleFlows sampleState := by
    refine .unused ?_
    rintro t ⟨⟩
    rfl
  have hheld : sampleRun.state.tpm.isSome = true := by decide +kernel
  obtain ⟨t, ht⟩ := Option.isSome_iff_exists.mp hheld
  refine ⟨sampleRun.state, t, .run hunused hreaches, ht, ?_⟩
  rw [sampleRecords, ht]
  rfl

/-- The only measurement of the log is that of the data with the register, whose value is five. -/
theorem exists_sample_measurement : ∃ r data register, measurements sampleRecords .sha1 = [r] ∧
    isDataMeasurement sampleFlows r = .ok true ∧ dataOf r = .ok (data, register) ∧ register.toNatLE = 5 := by
  have hone : (measurements sampleRecords .sha1).length = 1 := by decide +kernel
  have hread : ∀ r ∈ measurements sampleRecords .sha1, (isDataMeasurement sampleFlows r).toOption = some true ∧
      (dataOf r).toOption.any (fun p => p.2.toNatLE = 5) = true := by decide +kernel
  obtain ⟨r, hr⟩ := List.length_eq_one_iff.mp hone
  obtain ⟨his, hdata⟩ := hread r (hr ▸ .head _)
  obtain ⟨⟨data, register⟩, hdata, hvalue⟩ := (Option.any_eq_true _ _).mp hdata
  exact ⟨r, data, register, hr, eq_ok_of_toOption his, eq_ok_of_toOption hdata, of_decide_eq_true hvalue⟩

/-- A register value of four is within the bounds, and with it the log leads to some digest. -/
theorem exists_sample_corrected : ∃ expected,
    Admissible sampleFlows {} sampleRecords .sha1 (inOrder .sha1 3 (some 4)) ∧
      Reproduces sampleRecords .sha1 expected (inOrder .sha1 3 (some 4)) := by
  obtain ⟨r, data, register, hr, his, hdata, hvalue⟩ := exists_sample_measurement
  obtain ⟨f, hf⟩ : ∃ f, Algorithm.sha1.function? = some f := ⟨_, rfl⟩
  have hadmits : AdmitsValue sampleFlows ({} : Pcr0Bounds).toRegisterBounds
      (measurements sampleRecords .sha1) (some 4) := by
    rw [hr, admitsValue_of_data his hdata, hvalue]
    exact ⟨4, rfl, by decide, .inl (by decide)⟩
  have hcommands := withValue_some hdata (v := 4) (Tpm.hashBytes_eq hf _) []
  rw [← hr] at hcommands
  have hstart := EventLog.startValue_eq f.digestSize (by decide : (0 : Int) ≤ 3) (by decide)
  exact ⟨_, admissible_inOrder (.inr rfl) (by decide) (by decide) hadmits,
    reproduces_inOrder hcommands (Tpm.replay_extends hf hstart [_])⟩

/-- The search finds corrections for the digest of the log with another register value. -/
theorem reproduce_complete_sample : Recorded sampleFlows sampleRecords ∧
    ∃ expected c, Reproduces sampleRecords .sha1 expected (inOrder .sha1 3 (some 4)) ∧
      Returns (reproduce sampleFlows sampleRecords .sha1 expected {}) (some c) ∧
      IsFirst sampleFlows {} sampleRecords .sha1 expected c := by
  obtain ⟨expected, hadmissible, hreproduces⟩ := exists_sample_corrected
  obtain ⟨f, hf⟩ : ∃ f, Algorithm.sha1.function? = some f := ⟨_, rfl⟩
  have hflips : ({} : Pcr0Bounds).combinatorial = true → 0 ≤ ({} : Pcr0Bounds).maxFlips := fun _ => by decide
  obtain ⟨found, hreturns, hnone, hfirst⟩ := reproduce_complete recorded_sample hf hflips expected
  refine ⟨recorded_sample, expected, ?_⟩
  cases found with
  | none => exact absurd hreproduces (hnone.mp rfl _ hadmissible)
  | some c => exact ⟨c, hreproduces, hreturns, hfirst c rfl⟩

end MeasuredBoot.Pcr0
