import MeasuredBoot.Flow.Catalog
import MeasuredBoot.Proofs.Step.Limits

/-!
# The stages of a shipped boot

A boot from the root flow measures nothing before it measures the data of register zero: the root flow and
the two flows that lead to the verified boot only look at the machine, and the verified boot begins with
verifications. All other shipped flows are late: they never measure these data, and they lead to late
flows only.
-/
namespace MeasuredBoot.Shipped

/-- The flows before and around the measurement of the data. -/
def earlyNames : List String := ["Root", "Intel", "IntelCBnT"]

/-- True of a shipped flow that is neither before nor around the measurement of the data. -/
def isLate (r : FlowRef) : Bool := r.origin = .shipped && !earlyNames.contains r.name

def lateLimits : Limits := ⟨isLate, true⟩

/-- The limits of steps that measure nothing and switch to one flow or to a late one. -/
def silentLimits (target : FlowRef) : Limits := ⟨fun f => f = target || isLate f, false⟩

def dataIndex : Nat := 11

/-! ## Steps of the flows -/

theorem steps_root (flows : FlowCatalog) : flows.steps (ref "Root") = root.steps := by
  rfl

theorem steps_intel (flows : FlowCatalog) : flows.steps (ref "Intel") = intel.steps := by
  rfl

theorem steps_verified (flows : FlowCatalog) : flows.steps (ref "IntelCBnT") = intelVerified.steps := by
  rfl

theorem root_silent : ∀ step ∈ root.steps, step.within (silentLimits (ref "Intel")) = true := by
  decide

theorem intel_silent : ∀ step ∈ intel.steps, step.within (silentLimits (ref "IntelCBnT")) = true := by
  decide

theorem verified_silent : ∀ step ∈ intelVerified.steps.take dataIndex,
    step.within (silentLimits (ref "IntelCBnT")) = true := by
  decide

theorem verified_late : ∀ step ∈ intelVerified.steps.drop (dataIndex + 1),
    step.within lateLimits = true := by
  decide

theorem late_within : ∀ f ∈ Shipped.flows, earlyNames.contains f.name = false →
    ∀ step ∈ f.steps, step.within lateLimits = true := by
  decide

theorem mem_of_shipped {flows : FlowCatalog} {flow : FlowRef} (h : flow.origin = .shipped) {step : Step}
    (hstep : step ∈ flows.steps flow) : ∃ f ∈ Shipped.flows, f.name = flow.name ∧ step ∈ f.steps := by
  simp only [FlowCatalog.steps, FlowCatalog.flow?, h] at hstep
  cases hfound : Shipped.flows.find? (·.name = flow.name) with
  | none =>
      rw [hfound] at hstep
      cases hstep
  | some f =>
      rw [hfound] at hstep
      exact ⟨f, List.mem_of_find?_eq_some hfound, by simpa using List.find?_some hfound, hstep⟩

/-! ## Stages -/

/-- A place before the measurement of the data. -/
def Early (flow : FlowRef) (step : Int) : Prop :=
  flow = ref "Root" ∨ flow = ref "Intel" ∨ flow = ref "IntelCBnT" ∧ step < dataIndex

/-- A place past the measurement of the data, or one that does not lead there. -/
def Late (flow : FlowRef) (step : Int) : Prop :=
  isLate flow = true ∨ flow = ref "IntelCBnT" ∧ dataIndex ≤ step

section Step
variable {flows : FlowCatalog} {flow : FlowRef} {k : Nat} {step : Step}
  (hfound : (flows.steps flow)[k]? = some step)
include hfound

/-- A step at an early place is silent, or it is the one that measures the data. -/
theorem early_step {before : Int} (hbefore : before + 1 = k) (h : Early flow before) :
    (Early flow k ∧ ∃ target, Early target (-1) ∧ step.within (silentLimits target) = true) ∨
      Late flow k ∧ step = .measurePcr0Data := by
  obtain rfl | rfl | ⟨rfl, hlt⟩ := h
  · rw [steps_root] at hfound
    refine Or.inl ⟨Or.inl rfl, ref "Intel", Or.inr (Or.inl rfl), ?_⟩
    exact root_silent step (List.mem_of_getElem? hfound)
  · rw [steps_intel] at hfound
    refine Or.inl ⟨Or.inr (Or.inl rfl), ref "IntelCBnT", Or.inr (Or.inr ⟨rfl, by decide⟩), ?_⟩
    exact intel_silent step (List.mem_of_getElem? hfound)
  · rw [steps_verified] at hfound
    by_cases hlast : k < dataIndex
    · refine Or.inl ⟨Or.inr (Or.inr ⟨rfl, by omega⟩), ref "IntelCBnT", Or.inr (Or.inr ⟨rfl, by decide⟩), ?_⟩
      rw [← List.getElem?_take_of_lt hlast] at hfound
      exact verified_silent step (List.mem_of_getElem? hfound)
    · obtain rfl : k = dataIndex := by omega
      exact Or.inr ⟨Or.inr ⟨rfl, Int.le_refl _⟩, (Option.some.inj hfound).symm⟩

/-- A step at a late place stays within the limits of late flows. -/
theorem late_step {before : Int} (hbefore : before + 1 = k) (h : Late flow before) :
    Late flow k ∧ step.within lateLimits = true := by
  obtain hlate | ⟨rfl, hle⟩ := h
  · refine ⟨Or.inl hlate, ?_⟩
    obtain ⟨hshipped, hname⟩ := Bool.and_eq_true_iff.mp hlate
    obtain ⟨f, hf, heq, hstep⟩ :=
      mem_of_shipped (of_decide_eq_true hshipped) (List.mem_of_getElem? hfound)
    refine late_within f hf ?_ step hstep
    rw [heq]
    simpa using hname
  · rw [steps_verified] at hfound
    refine ⟨Or.inr ⟨rfl, by omega⟩, verified_late step ?_⟩
    have hdropped : (intelVerified.steps.drop (dataIndex + 1))[k - (dataIndex + 1)]? = some step := by
      rw [List.getElem?_drop, ← hfound]
      congr 1
      omega
    exact List.mem_of_getElem? hdropped

end Step
end MeasuredBoot.Shipped
