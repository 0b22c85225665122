import MeasuredBoot.Proofs.Boot.Trace
import MeasuredBoot.Proofs.Flow.Stages

/-!
# Where a shipped boot ends

Every shipped flow but the last one ends with a step that switches to another shipped flow or panics, so a
run without issues ends in the last flow only, past the step that starts the TPM unless it was started
before. A root run without issues therefore leaves an initialised TPM.
-/
namespace MeasuredBoot

/-- True of a step that does not go on to the next one of its flow, unless it has an issue. -/
def Step.leaves : Step → Bool
  | setFlow _ => true
  | panic _ => true
  | _ => false

namespace Shipped

def isShipped (r : FlowRef) : Bool := r.origin = .shipped && flows.any (·.name = r.name)

def shippedLimits : Limits := ⟨isShipped, true⟩

def final : FlowRef := ref "OCPDXE"

/-- The step of the last flow that starts the TPM. -/
def startIndex : Nat := 1

/-! ## Steps of the flows -/

theorem steps_within : ∀ f ∈ flows, ∀ step ∈ f.steps,
    step.within shippedLimits = true ∨ step.isMeasurePcr0Data = true := by
  decide

theorem last_leaves : ∀ f ∈ flows, f.name ≠ final.name → f.steps.getLast?.any Step.leaves = true := by
  decide

theorem steps_final (flows : FlowCatalog) : flows.steps final = dxe.steps := by
  rfl

theorem eq_final {flow : FlowRef} (h : isShipped flow = true) (hname : flow.name = final.name) :
    flow = final := by
  have horigin := of_decide_eq_true (Bool.and_eq_true_iff.mp h).1
  cases flow
  cases horigin
  cases hname
  rfl

theorem steps_of_isShipped {flow : FlowRef} (h : isShipped flow = true) (flows : FlowCatalog) :
    ∃ f ∈ Shipped.flows, f.name = flow.name ∧ flows.steps flow = f.steps := by
  obtain ⟨hshipped, hany⟩ := Bool.and_eq_true_iff.mp h
  obtain ⟨f, hf⟩ := Option.isSome_iff_exists.mp (List.find?_isSome.mpr (List.any_eq_true.mp hany))
  refine ⟨f, List.mem_of_find?_eq_some hf, by simpa using List.find?_some hf, ?_⟩
  simp only [FlowCatalog.steps, FlowCatalog.flow?, of_decide_eq_true hshipped]
  rw [hf]
  rfl

end Shipped

namespace Boot
variable {flows : FlowCatalog} {flow : FlowRef} {step : Step} {s u : State} {t : Tpm}

/-! ## Steps -/

/-- A step that leaves its flow switches to another one. -/
theorem CleanStep.step_of_leaves (h : CleanStep flows flow step s u) (hleaves : step.leaves = true) :
    u.step = -1 := by
  obtain ⟨-, -, produced, n, hproduced, hperforms⟩ := h
  cases step with
  | setFlow f =>
      cases hproduced
      obtain ⟨v, happlied, hcase⟩ := exists_of_performs_cons hperforms
      cases happlied
      rcases hcase with ⟨hswitched, rfl⟩ | ⟨hstayed, -⟩
      · exact hswitched
      · exact absurd rfl hstayed
  | panic reason =>
      cases hproduced
      exact absurd rfl (ne_panic_of_performs hperforms reason)
  | _ => cases hleaves

theorem CleanStep.initialized_of_lazily {locality : Int}
    (h : CleanStep flows flow (.initTpmLazily locality) s u) (ht : s.tpm = some t)
    (halgorithms : t.algorithms ≠ []) : ∃ t', u.tpm = some t' ∧ t'.isInitialized = true := by
  obtain ⟨-, -, produced, n, hproduced, hperforms⟩ := h
  have hheld : s.advanced.tpm = some t := ht
  rw [Step.actions] at hproduced
  split at hproduced
  · rename_i hinitialized
    cases hproduced
    cases hperforms
    rw [Condition.holds, hheld] at hinitialized
    exact ⟨t, hheld, hinitialized⟩
  · cases hproduced
    obtain ⟨v, happlied, hcase⟩ := exists_of_performs_cons hperforms
    obtain ⟨⟨cs, t', hcs, haccepts, htpm⟩, -, -⟩ := Action.apply_of_ok happlied ht
    cases hcs
    obtain ⟨w, hexecuted, hrest⟩ := Tpm.accepts_cons.mp haccepts
    cases hrest
    obtain ⟨-, -, hfollows⟩ := Tpm.execute_of_ok hexecuted
    have hinitialized : t'.isInitialized = true := by
      rw [Tpm.isInitialized_of_follows hfollows, Tpm.initializedAfter]
      simpa using halgorithms
    rcases hcase with ⟨-, rfl⟩ | ⟨-, hlast⟩
    · exact ⟨t', htpm, hinitialized⟩
    · cases hlast
      exact ⟨t', htpm, hinitialized⟩

/-! ## Runs -/

/-- A state in a shipped flow, whose TPM was started if the boot is past the start in the last flow. -/
structure Anchored (flows : FlowCatalog) (s : State) (t : Tpm) : Prop where
  held : s.tpm = some t
  able : t.algorithms ≠ []
  bound : -1 ≤ s.step
  place : ∃ flow, s.flow = some flow ∧ Shipped.isShipped flow = true ∧
    (flow.name = Shipped.final.name → Shipped.startIndex ≤ s.step → t.isInitialized = true) ∧
    (flow.name ≠ Shipped.final.name → (s.step + 1).toNat < (flows.steps flow).length)

/-- The last step of a shipped flow leaves it, unless the flow is the last one. -/
theorem leaves_of_last (hshipped : Shipped.isShipped flow = true) (hname : flow.name ≠ Shipped.final.name)
    {k : Nat} (hfound : (flows.steps flow)[k]? = some step) (hlast : (flows.steps flow).length ≤ k + 1) :
    step.leaves = true := by
  obtain ⟨f, hf, heq, hsteps⟩ := Shipped.steps_of_isShipped hshipped flows
  have hleaves := Shipped.last_leaves f hf (by rwa [heq])
  rw [hsteps] at hfound hlast
  have hlength : k < f.steps.length := (List.getElem?_eq_some_iff.mp hfound).choose
  have hlast : f.steps.getLast? = some step := by
    rw [List.getLast?_eq_getElem?, ← hfound]
    congr 1
    omega
  rwa [hlast] at hleaves

theorem anchored_of_switch (hshipped : Shipped.isShipped flow = true) (hflow : u.flow = some flow)
    (hstep : u.step = -1) (ht : u.tpm = some t) (halgorithms : t.algorithms ≠ []) :
    Anchored flows u t := by
  refine ⟨ht, halgorithms, by omega, flow, hflow, hshipped, fun _ hle => ?_, fun hname => ?_⟩
  · rw [hstep, Shipped.startIndex] at hle
    omega
  · obtain ⟨f, hf, heq, hsteps⟩ := Shipped.steps_of_isShipped hshipped flows
    have hleaves := Shipped.last_leaves f hf (by rwa [heq])
    rw [hsteps, hstep]
    refine List.length_pos_iff.mpr fun hempty => ?_
    rw [hempty] at hleaves
    cases hleaves

theorem isShipped_of_switch (h : CleanStep flows flow step s u)
    (hshipped : Shipped.isShipped flow = true) {produced : List Step.Produced} {n : Nat}
    (hproduced : step.actions s.advanced = .ok produced) {x : IssuedAction} (hx : x ∈ identify n produced)
    {f : FlowRef} (hf : x.action = .setFlow f) : Shipped.isShipped f = true := by
  obtain ⟨g, hg, -, hsteps⟩ := Shipped.steps_of_isShipped hshipped flows
  have hmem : step ∈ g.steps := by
    rw [← hsteps]
    exact List.mem_of_getElem? h.found
  rcases Shipped.steps_within g hg step hmem with hwithin | hdata
  · have hallowed := within_of_identify hwithin hproduced n x hx
    rwa [hf] at hallowed
  · cases step with
    | measurePcr0Data =>
        obtain ⟨actions, -, -, hall⟩ := isDataAction_of_identify (n := n) hproduced
        have hswitch := hall x hx
        rw [hf] at hswitch
        cases hswitch
    | _ => cases hdata

theorem anchored_step (h : CleanStep flows flow step s u) (hs : Anchored flows s t) :
    ∃ t', Anchored flows u t' := by
  obtain ⟨produced, n, hproduced, hperforms⟩ := h.performs
  obtain ⟨_, hflow, hshipped, hstarted, -⟩ := hs.place
  obtain rfl := Option.some.inj (h.current.symm.trans hflow)
  have hbound := hs.bound
  have hheld : s.advanced.tpm = some t := hs.held
  obtain ⟨⟨rs, t', haccepts, htpm, -⟩, -, harrives⟩ := traced_of_performs hperforms hheld
  have halgorithms : t'.algorithms ≠ [] := by
    rw [(Tpm.commands_of_accepts haccepts).2]
    exact hs.able
  refine ⟨t', ?_⟩
  obtain ⟨hstays, hsame⟩ | ⟨x, hx, f, hf, hswitched, hstart⟩ := harrives
  · have hstep : u.step = s.step + 1 := hsame
    refine ⟨htpm, halgorithms, by omega, flow, hstays.trans hflow, hshipped, fun hname hle => ?_,
      fun hname => ?_⟩
    · by_cases hpast : Shipped.startIndex ≤ s.step
      · exact Tpm.isInitialized_of_accepts haccepts hs.able (hstarted hname hpast)
      · -- The boot has just executed the step that starts the TPM.
        have hindex : (s.step + 1).toNat = Shipped.startIndex := by
          rw [hstep] at hle
          omega
        have hfound := h.found
        rw [Shipped.eq_final hshipped hname, Shipped.steps_final, hindex] at hfound
        obtain rfl := Option.some.inj hfound
        obtain ⟨t'', htpm', hinitialized⟩ := h.initialized_of_lazily hs.held hs.able
        obtain rfl := Option.some.inj (htpm.symm.trans htpm')
        exact hinitialized
    · by_contra hlast
      have hleft := h.step_of_leaves (leaves_of_last hshipped hname h.found (by omega))
      omega
  · exact anchored_of_switch (isShipped_of_switch h hshipped hproduced hx hf) hswitched hstart htpm
      halgorithms

/-- A boot that halts is past the start of the TPM. -/
theorem initialized_of_halts (h : Halts flows s) (hs : Anchored flows s t) : t.isInitialized = true := by
  obtain ⟨flow, hflow, hshipped, hstarted, hshort⟩ := hs.place
  obtain hnone | ⟨f, hf, hend⟩ := h
  · cases hnone.symm.trans hflow
  · obtain rfl := Option.some.inj (hf.symm.trans hflow)
    have hlength := List.getElem?_eq_none_iff.mp hend
    have hname : f.name = Shipped.final.name := by
      by_contra hother
      have := hshort hother
      omega
    apply hstarted hname
    have hcount : Shipped.startIndex + 1 < Shipped.dxe.steps.length := by decide
    rw [Shipped.eq_final hshipped hname, Shipped.steps_final] at hlength
    omega

/-- A run without issues that begins in a shipped flow leaves an initialised TPM. -/
theorem initialized_of_run (h : CleanRun flows s u) (hs : Anchored flows s t) :
    ∃ t', u.tpm = some t' ∧ t'.isInitialized = true := by
  induction h generalizing t with
  | halt hhalts => exact ⟨t, hs.held, initialized_of_halts hhalts hs⟩
  | step hstep _ ih =>
      obtain ⟨t', hs'⟩ := anchored_step hstep hs
      exact ih hs'

end Boot
end MeasuredBoot
