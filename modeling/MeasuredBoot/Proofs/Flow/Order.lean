import Mathlib.Data.List.Nodup
import MeasuredBoot.Proofs.Boot.Ending
import MeasuredBoot.Proofs.Boot.Foretold

/-!
# The order of the shipped flows

The shipped flows can be put into an order in which every flow leads only to flows that stand behind it. A
step then has a position, the number of the steps of all flows before it, and every executed step, also one
that has failed with an issue, leads to a step at a higher position. So a run of a shipped flow executes no
step twice, it fits into the usual budget, and if nothing panics, it comes to the end of the last flow.
-/
namespace MeasuredBoot

namespace Shipped

/-- The shipped flows in an order in which no flow leads to one before it. -/
def order : List Flow := [
  root, intel, intelLegacy, intelVerified, intelFailure, intelResetVector,
  amd, amdGenoa, amdLocality3, amdFailure, amdLocality0, pei,
  peiV1, peiV1Amd, peiV0, dxe]

def stepCount : Nat := (flows.flatMap Flow.steps).length

def stepsBefore (name : String) : Nat :=
  ((order.takeWhile fun f => f.name ≠ name).flatMap Flow.steps).length

def position (flow : FlowRef) (index : Nat) : Nat := stepsBefore flow.name + index

/-- The limits of the steps of a flow: they switch to a shipped flow that stands behind it. -/
def onwardLimits (f : Flow) : Limits :=
  ⟨fun g => isShipped g && stepsBefore f.name + f.steps.length ≤ stepsBefore g.name, true⟩

theorem steps_onward : ∀ f ∈ flows, ∀ step ∈ f.steps,
    step.within (onwardLimits f) = true ∨ step.isMeasurePcr0Data = true := by
  decide

theorem stepsBefore_add_length_le : ∀ f ∈ flows, stepsBefore f.name + f.steps.length ≤ stepCount := by
  decide

theorem steps_ne_nil : ∀ f ∈ flows, f.steps ≠ [] := by
  decide

theorem isShipped_of_mem : ∀ f ∈ flows, isShipped (ref f.name) = true := by
  decide

theorem stepCount_le_usualMaxSteps : (stepCount : Int) ≤ Boot.usualMaxSteps := by
  decide

/-- A shipped flow switches to a flow behind it. -/
theorem onward_of_produces {f : Flow} (hf : f ∈ flows) {step : Step} (hstep : step ∈ f.steps) {g : FlowRef}
    (h : step.Produces (.setFlow g)) :
    isShipped g = true ∧ stepsBefore f.name + f.steps.length ≤ stepsBefore g.name := by
  rcases steps_onward f hf step hstep with hwithin | hdata
  · have hallowed := Step.within_of_produces h hwithin
    obtain ⟨hshipped, hbehind⟩ := Bool.and_eq_true_iff.mp hallowed
    exact ⟨hshipped, of_decide_eq_true hbehind⟩
  · cases step with
    | measurePcr0Data =>
        cases h with
        | data hx => cases hx
    | _ => cases hdata

end Shipped

namespace Boot

open Shipped (isShipped position stepsBefore stepCount final)

/-! ## One step -/

/-- After a step a boot is where it was, or at the beginning of a flow to which an action of it switches. -/
theorem arrivesBy_stateAfter (index : Nat) (actions : List IssuedAction) (s : State) :
    ArrivesBy actions s (stateAfter index (applied actions) s) := by
  induction actions generalizing index s with
  | nil => exact Or.inl ⟨rfl, rfl⟩
  | cons a rest ih =>
      rw [applied, stateAfter]
      cases hswitches : a.action.switches with
      | true =>
          have hends : a.action.ends = true := by rw [Action.ends, hswitches, Bool.true_or]
          have hplace := Action.coordinates_after_apply a { s with action := index }
          rw [if_pos hends]
          cases haction : a.action with
          | setFlow f =>
              rw [haction] at hplace
              exact Or.inr ⟨a, by simp, f, haction, congrArg Coordinates.flow hplace,
                congrArg Coordinates.step hplace⟩
          | _ =>
              rw [haction] at hswitches
              cases hswitches
      | false =>
          obtain ⟨hflow, hstep⟩ := place_after_apply index s hswitches
          split
          · exact Or.inl ⟨hflow, hstep⟩
          · rcases ih (index + 1) (after (Action.apply a) { s with action := index }) with
              ⟨hflow', hstep'⟩ | ⟨x, hx, f, hf, hswitched⟩
            · exact Or.inl ⟨hflow'.trans hflow, hstep'.trans hstep⟩
            · exact Or.inr ⟨x, by simp [hx], f, hf, hswitched⟩

/-- A state in a shipped flow whose next step, if there is one, has a position; only of the last flow no step
may be left. -/
structure Onward (flows : FlowCatalog) (s : State) (next : Nat) : Prop where
  bound : -1 ≤ s.step
  place : ∃ flow, s.flow = some flow ∧ isShipped flow = true ∧ next = position flow (s.step + 1).toNat ∧
    (s.step + 1).toNat ≤ (flows.steps flow).length ∧
    (flow.name ≠ final.name → (s.step + 1).toNat < (flows.steps flow).length)

section Step
variable {flows : FlowCatalog} {b : Boot} {e : Execution} {next : Nat}

theorem onward_of_switch {s : State} {flow : FlowRef} (hshipped : isShipped flow = true)
    (hflow : s.flow = some flow) (hstep : s.step = -1) : Onward flows s (stepsBefore flow.name) := by
  obtain ⟨f, hf, -, hsteps⟩ := Shipped.steps_of_isShipped hshipped flows
  have hlength : 0 < (flows.steps flow).length := by
    rw [hsteps]
    exact List.length_pos_iff.mpr (Shipped.steps_ne_nil f hf)
  refine ⟨by omega, flow, hflow, hshipped, ?_, ?_, fun _ => ?_⟩
  · rw [hstep]
    rfl
  · rw [hstep]
    exact Nat.zero_le _
  · rw [hstep]
    exact hlength

theorem onward_ofFlow {f : Flow} (hf : f ∈ Shipped.flows) (flows : FlowCatalog) (s : State) (M : Int) :
    Onward flows (ofFlow s (Shipped.ref f.name) M).state (stepsBefore f.name) :=
  onward_of_switch (Shipped.isShipped_of_mem f hf) rfl rfl

theorem onward_root (flows : FlowCatalog) (s : State) (M : Int) :
    Onward flows (ofFlow s (Shipped.ref "Root") M).state (stepsBefore "Root") :=
  onward_ofFlow (f := Shipped.root) (by simp [Shipped.flows]) flows s M

theorem Execution.Begins.step_of_leaves (h : e.Begins flows b) (hb : -1 ≤ b.state.step)
    (hnext : nextStep flows b = .ok true e.finish) (hleaves : e.step.leaves = true) :
    e.finish.state.step = -1 := by
  obtain ⟨issues, b', hactions, hstate, -⟩ := h.exists_record hnext
  have hspec := applyActions_spec e.flow 0 e.produced (begun e.flow e.step e.start) (h.step_nonneg hb)
  rw [hactions] at hspec
  obtain ⟨hfinish, hcalm⟩ := hspec
  rw [hstate, hfinish]
  cases hstep : e.step with
  | setFlow f =>
      have hproduced : e.produced = [⟨.issued e.start.issued, .setFlow f⟩] := by
        rw [Execution.produced, hstep]
        rfl
      rw [hproduced]
      exact (step_after_apply _ 0 (h.step_nonneg hb)).mpr rfl
  | panic reason =>
      have hproduced : e.produced = [⟨.issued e.start.issued, .panic reason⟩] := by
        rw [Execution.produced, hstep]
        rfl
      rw [hproduced] at hcalm
      cases hcalm _ (List.mem_singleton_self _)
  | _ =>
      rw [hstep] at hleaves
      cases hleaves

theorem Execution.Begins.arrives (h : e.Begins flows b) (hb : -1 ≤ b.state.step)
    (hnext : nextStep flows b = .ok true e.finish) : ArrivesBy e.produced e.start.state e.finish.state := by
  rw [(h.attributed_of_ok hb hnext none).finish, Execution.stateAt, List.take_length]
  exact arrivesBy_stateAfter 0 e.produced e.start.state

/-- The step that is executed next stands at the next position. -/
theorem position_eq (h : e.Begins flows b) (hb : Onward flows b.state next) :
    position e.flow e.index = next ∧ next < stepCount := by
  obtain ⟨flow, hflow, hshipped, rfl, -, -⟩ := hb.place
  obtain rfl := Option.some.inj (h.current.symm.trans hflow)
  obtain ⟨f, hf, hname, hsteps⟩ := Shipped.steps_of_isShipped hshipped flows
  have hindex : (b.state.step + 1).toNat = e.index := by
    rw [Execution.index, h.start_eq]
    rfl
  have hlt : e.index < (flows.steps e.flow).length := (List.getElem?_eq_some_iff.mp h.found).choose
  have hcount := Shipped.stepsBefore_add_length_le f hf
  rw [hname, ← hsteps] at hcount
  rw [hindex]
  exact ⟨rfl, Nat.lt_of_lt_of_le (Nat.add_lt_add_left hlt _) hcount⟩

/-- A step of a shipped flow leads on to a higher position. -/
theorem onward_step (h : e.Begins flows b) (hb : Onward flows b.state next)
    (hnext : nextStep flows b = .ok true e.finish) :
    ∃ later, next < later ∧ Onward flows e.finish.state later := by
  obtain ⟨flow, hflow, hshipped, rfl, -, -⟩ := hb.place
  obtain rfl := Option.some.inj (h.current.symm.trans hflow)
  have hindex : e.start.state.step = e.index := h.step_eq hb.bound
  have hstart : b.state.step + 1 = e.index := by
    rw [← hindex, h.start_eq]
    rfl
  have hlt : e.index < (flows.steps e.flow).length := (List.getElem?_eq_some_iff.mp h.found).choose
  rw [hstart, Int.toNat_natCast]
  obtain ⟨hsame, hstays⟩ | ⟨x, hx, g, hg, hswitched, hfirst⟩ := h.arrives hb.bound hnext
  · have hplace : e.finish.state.step + 1 = (e.index + 1 : Nat) := by
      rw [hstays, hindex]
      rfl
    refine ⟨position e.flow (e.index + 1), Nat.lt_succ_self _, by omega, e.flow, hsame.trans h.flow_eq,
      hshipped, ?_, ?_, fun hname => ?_⟩
    · rw [hplace, Int.toNat_natCast]
    · rw [hplace, Int.toNat_natCast]
      exact hlt
    · rw [hplace, Int.toNat_natCast]
      by_contra hlast
      have hleaves := leaves_of_last hshipped hname h.found (Nat.le_of_not_lt hlast)
      have hleft := h.step_of_leaves hb.bound hnext hleaves
      omega
  · obtain ⟨f, hf, hname, hsteps⟩ := Shipped.steps_of_isShipped hshipped flows
    obtain ⟨produced, hactions, y, hy, heq⟩ := exists_of_mem_issuedBy hx
    have hproduces := Step.produces_of_mem hactions y hy
    rw [heq, hg] at hproduces
    have hmem : e.step ∈ f.steps := hsteps ▸ List.mem_of_getElem? h.found
    obtain ⟨hshipped', hbehind⟩ := Shipped.onward_of_produces hf hmem hproduces
    refine ⟨stepsBefore g.name, ?_, onward_of_switch hshipped' hswitched hfirst⟩
    rw [hname, ← hsteps] at hbehind
    exact Nat.lt_of_lt_of_le (Nat.add_lt_add_left hlt _) hbehind

/-- A run that has no step left is at the end of the last flow. -/
theorem final_of_ended {b' : Boot} (h : nextStep flows b = .ok false b') (hb : Onward flows b.state next) :
    b' = moved b ∧ b.state.flow = some final ∧ b.state.step + 1 = Shipped.dxe.steps.length := by
  obtain ⟨flow, hflow, hshipped, -, hle, hshort⟩ := hb.place
  have hspec := nextStep_spec flows b
  rw [h] at hspec
  cases hspec with
  | idle hnone => cases hnone.symm.trans hflow
  | ended hflow' hend =>
      obtain rfl := Option.some.inj (hflow'.symm.trans hflow)
      have hlength : (flows.steps _).length ≤ (b.state.step + 1).toNat := List.getElem?_eq_none_iff.mp hend
      have hname := by_contra fun hother => Nat.not_lt.mpr hlength (hshort hother)
      obtain rfl := Shipped.eq_final hshipped hname
      rw [Shipped.steps_final] at hlength hle
      have hbound := hb.bound
      exact ⟨rfl, hflow, by omega⟩

end Step

/-! ## Runs -/

section Run
variable {flows : FlowCatalog} {b last : Boot} {es : List Execution} {o : Option Fault} {next : Nat}

/-- The positions of the executed steps rise. -/
theorem rising_of_executes (h : Executes flows b es o last) (hb : Onward flows b.state next) :
    (∀ e ∈ es, next ≤ position e.flow e.index ∧ position e.flow e.index < stepCount) ∧
      (es.map fun e => position e.flow e.index).Pairwise (· < ·) := by
  induction h generalizing next with
  | ended => exact ⟨fun e he => absurd he List.not_mem_nil, .nil⟩
  | spent => exact ⟨fun e he => absurd he List.not_mem_nil, .nil⟩
  | broke hbegins _ _ =>
      obtain ⟨rfl, hlt⟩ := position_eq hbegins hb
      refine ⟨fun e he => ?_, List.pairwise_singleton _ _⟩
      obtain rfl := List.mem_singleton.mp he
      exact ⟨Nat.le_refl _, hlt⟩
  | step hbegins hnext _ ih =>
      obtain ⟨rfl, hlt⟩ := position_eq hbegins hb
      obtain ⟨later, hbehind, hlater⟩ := onward_step hbegins hb hnext
      obtain ⟨hall, hrising⟩ := ih hlater
      refine ⟨fun e he => ?_, ?_⟩
      · rcases List.mem_cons.mp he with rfl | he
        · exact ⟨Nat.le_refl _, hlt⟩
        · obtain ⟨hle, hlt'⟩ := hall e he
          exact ⟨by omega, hlt'⟩
      · rw [List.map_cons, List.pairwise_cons]
        refine ⟨fun p hp => ?_, hrising⟩
        obtain ⟨e, he, rfl⟩ := List.mem_map.mp hp
        exact Nat.lt_of_lt_of_le hbehind (hall e he).1

theorem length_le_of_executes (h : Executes flows b es o last) (hb : Onward flows b.state next) :
    es.length ≤ stepCount := by
  obtain ⟨hall, hrising⟩ := rising_of_executes h hb
  have hnodup : (es.map fun e => position e.flow e.index).Nodup := hrising.imp Nat.ne_of_lt
  have hsub : (es.map fun e => position e.flow e.index) ⊆ List.range stepCount := by
    intro p hp
    obtain ⟨e, he, rfl⟩ := List.mem_map.mp hp
    exact List.mem_range.mpr (hall e he).2
  simpa using (List.subperm_of_subset hnodup hsub).length_le

/-- A budget that all steps fit into is never spent. -/
theorem ends_of_executes (h : Executes flows b es o last) (hb : Onward flows b.state next)
    (hlog : b.log.size ≤ next) (hbudget : (stepCount : Int) ≤ b.maxSteps) :
    o = none ∨ ∃ reason, o = some (.panic reason) := by
  induction h generalizing next with
  | ended => exact Or.inl rfl
  | @spent b b' f hspent hnext =>
      have hspec := nextStep_spec flows b
      rw [hnext] at hspec
      cases hspec with
      | broke _ _ hleft _ => omega
      | @spent flow step hflow hfound _ =>
          have hbegins : Execution.Begins flows b ⟨flow, step, moved b, b⟩ := ⟨hflow, hfound, rfl⟩
          have hlt := (position_eq hbegins hb).2
          omega
  | broke hbegins hnext hleft =>
      obtain ⟨reason, rfl, -⟩ := hbegins.exists_brokenBy hb.bound hnext hleft
      exact Or.inr ⟨reason, rfl⟩
  | step hbegins hnext _ ih =>
      obtain ⟨later, hbehind, hlater⟩ := onward_step hbegins hb hnext
      obtain ⟨issues, b', -, -, hrecord⟩ := hbegins.exists_record hnext
      refine ih hlater ?_ (hbegins.maxSteps_eq hnext ▸ hbudget)
      rw [hrecord, Array.size_push]
      omega

/-- A run without a fault comes to the end of the last flow. -/
theorem final_of_executes (h : Executes flows b es none last) (hb : Onward flows b.state next) :
    last.state.flow = some final ∧ last.state.step = Shipped.dxe.steps.length ∧
      ∀ e, es.getLast? = some e → e.flow = final ∧ e.index + 1 = Shipped.dxe.steps.length := by
  generalize hnone : (none : Option Fault) = o at h
  induction h generalizing next with
  | ended hnext =>
      obtain ⟨rfl, hflow, hstep⟩ := final_of_ended hnext hb
      exact ⟨hflow, hstep, fun e he => by cases he⟩
  | spent => cases hnone
  | broke => cases hnone
  | @step b last e es o hbegins hnext hrest ih =>
      obtain ⟨later, -, hlater⟩ := onward_step hbegins hb hnext
      obtain ⟨hflow, hstep, hlast⟩ := ih hlater hnone
      refine ⟨hflow, hstep, fun x hx => ?_⟩
      cases hrest with
      | ended hend =>
          obtain rfl : e = x := Option.some.inj hx
          obtain ⟨-, hfinal, hcount⟩ := final_of_ended hend hlater
          obtain ⟨hsame, hstays⟩ | ⟨-, -, -, -, -, hfirst⟩ := hbegins.arrives hb.bound hnext
          · rw [hbegins.step_eq hb.bound] at hstays
            exact ⟨Option.some.inj ((hsame.trans hbegins.flow_eq).symm.trans hfinal), by omega⟩
          · rw [hfirst] at hcount
            cases hcount
      | spent => cases hnone
      | broke => cases hnone
      | step => exact hlast x (by rwa [List.getLast?_cons_cons] at hx)

/-- The last step of a run without a fault measures the separator, if the run begins with a flow. -/
theorem separator_of_executes (h : Executes flows b es none last) (hb : Onward flows b.state next)
    (hfirst : b.state.step = -1) : ∃ e, es.getLast? = some e ∧ e.flow = final ∧
      e.index + 1 = Shipped.dxe.steps.length ∧ e.step = .measureSeparator 0 := by
  cases hes : es.getLast? with
  | none =>
      obtain rfl := List.getLast?_eq_none_iff.mp hes
      cases h with
      | ended hnext =>
          have hcount := (final_of_ended hnext hb).2.2
          rw [hfirst] at hcount
          cases hcount
  | some e =>
      obtain ⟨hflow, hindex⟩ := (final_of_executes h hb).2.2 e hes
      have hfound := ((attributed_of_executes h hb.bound).2 e (List.mem_of_getLast? hes)).found
      have hlast : e.index = Shipped.dxe.steps.length - 1 := Nat.eq_sub_of_add_eq hindex
      rw [hflow, Shipped.steps_final, hlast] at hfound
      exact ⟨e, rfl, hflow, hindex, (Option.some.inj hfound).symm⟩

theorem steps_of_executes (h : Executes flows b es none last) (hb : -1 ≤ b.state.step) :
    last.log.toList.map StepRecord.step = b.log.toList.map StepRecord.step ++ es.map Execution.step := by
  obtain ⟨done, broken, records, rfl, hends, hrecords, htold⟩ := told_of_executes h hb
  cases hends with
  | done =>
      have hsteps : records.map StepRecord.step = done.map Execution.step := by
        clear hrecords h
        induction htold with
        | nil => rfl
        | cons hfirst _ ih => rw [List.map_cons, List.map_cons, hfirst.step, ih]
      rw [hrecords, List.map_append, hsteps, List.append_nil]

theorem size_log_le_of_executes (h : Executes flows b es o last) (hb : -1 ≤ b.state.step) :
    last.log.size ≤ b.log.size + es.length := by
  obtain ⟨done, broken, records, rfl, -, hrecords, htold⟩ := told_of_executes h hb
  have hlength := congrArg List.length hrecords
  rw [List.length_append, Array.length_toList, Array.length_toList, ← htold.length_eq] at hlength
  rw [hlength, List.length_append]
  omega

end Run

/-- Every shipped flow finishes, whatever the state. No step is executed twice, so a run executes no more
steps than all shipped flows have together, and if its budget allows as many, it ends by itself or with a
panic. If it ends by itself, it has come to the end of the last flow, with the measurement of a separator. -/
theorem shipped_finishes (flows : FlowCatalog) {f : Flow} (hf : f ∈ Shipped.flows) (s : State) (M : Int) :
    (stepCount : Int) ≤ usualMaxSteps ∧
    ∃ es last, Executes flows (ofFlow s (Shipped.ref f.name) M) es
        (complete flows (ofFlow s (Shipped.ref f.name) M)).1 last ∧
      (complete flows (ofFlow s (Shipped.ref f.name) M)).2.state = last.state ∧
      (complete flows (ofFlow s (Shipped.ref f.name) M)).2.log = last.log ∧
      (es.map fun e => (e.flow, e.index)).Nodup ∧ es.length ≤ stepCount ∧ last.log.size ≤ es.length ∧
      ((stepCount : Int) ≤ M → (complete flows (ofFlow s (Shipped.ref f.name) M)).1 = none ∨
        ∃ reason, (complete flows (ofFlow s (Shipped.ref f.name) M)).1 = some (.panic reason)) ∧
      ((complete flows (ofFlow s (Shipped.ref f.name) M)).1 = none →
        last.state.flow = some (Shipped.ref "OCPDXE") ∧ last.state.step = Shipped.dxe.steps.length ∧
        (∃ e, es.getLast? = some e ∧ e.flow = Shipped.ref "OCPDXE" ∧ e.index + 1 = Shipped.dxe.steps.length) ∧
        last.log.toList.getLast?.map StepRecord.step = some (.measureSeparator 0)) := by
  obtain ⟨es, last, hexecutes, hstate, hlog⟩ := exists_executes flows (ofFlow s (Shipped.ref f.name) M)
  have hstart := onward_ofFlow hf flows s M
  refine ⟨Shipped.stepCount_le_usualMaxSteps, es, last, hexecutes, hstate, hlog, ?_,
    length_le_of_executes hexecutes hstart, ?_, ends_of_executes hexecutes hstart (Nat.zero_le _), ?_⟩
  · have hrising := (rising_of_executes hexecutes hstart).2.imp Nat.ne_of_lt
    apply List.Nodup.of_map (fun place : FlowRef × Nat => position place.1 place.2)
    rwa [List.map_map]
  · have hsize := size_log_le_of_executes hexecutes hstart.bound
    rwa [show (ofFlow s (Shipped.ref f.name) M).log.size = 0 from rfl, Nat.zero_add] at hsize
  · intro hnone
    rw [hnone] at hexecutes
    obtain ⟨hflow, hstep, -⟩ := final_of_executes hexecutes hstart
    obtain ⟨e, hlast, hfinal, hindex, hseparator⟩ := separator_of_executes hexecutes hstart rfl
    refine ⟨hflow, hstep, ⟨e, hlast, hfinal, hindex⟩, ?_⟩
    have hsteps := steps_of_executes hexecutes hstart.bound
    rw [← List.getLast?_map, hsteps]
    change (es.map Execution.step).getLast? = _
    rw [List.getLast?_map, hlast, ← hseparator]
    rfl

def bareBoot : Boot := ofFlow {} (Shipped.ref Shipped.peiV0.name) usualMaxSteps

/-- Although hardly a step succeeds, the run comes to the end of the last flow. -/
theorem shipped_finishes_sample : Shipped.peiV0 ∈ Shipped.flows ∧ (complete {} bareBoot).1 = none ∧
    (complete {} bareBoot).2.state.flow = some (Shipped.ref "OCPDXE") ∧
    (complete {} bareBoot).2.log.toList.getLast?.map StepRecord.step = some (.measureSeparator 0) ∧
    (complete {} bareBoot).2.log.toList.any (fun r => !r.issues.isEmpty) = true := by
  rw [bareBoot]
  have hmem : Shipped.peiV0 ∈ Shipped.flows := by simp [Shipped.flows]
  have hnone : (complete {} (ofFlow {} (Shipped.ref Shipped.peiV0.name) usualMaxSteps)).1 = none :=
    Option.isNone_iff_eq_none.mp (by decide +kernel)
  obtain ⟨-, es, last, -, hstate, hlog, -, -, -, -, hends⟩ :=
    shipped_finishes {} hmem {} usualMaxSteps
  obtain ⟨hflow, -, -, hlast⟩ := hends hnone
  refine ⟨hmem, hnone, ?_, ?_, by decide +kernel⟩
  · rw [hstate, hflow]
  · rw [hlog, hlast]

end Boot
end MeasuredBoot
