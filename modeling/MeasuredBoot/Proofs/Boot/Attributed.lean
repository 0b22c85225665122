import MeasuredBoot.Proofs.Boot.Applied
import MeasuredBoot.Proofs.Boot.Executed

/-!
# Where the commands of a run come from

The command log of a run, however it ends, is what the applied actions of its executed steps have issued,
in the order of the executions. Each record names a step which the run executed, at the place at which the
flow has that step, and an action which that step produced and which was applied. A step applies its actions
up to the first that switches the flow, or up to the panic that ends the run; so no record names a flow or a
step which the run had left.
-/
namespace MeasuredBoot.Boot

namespace Execution

/-- The actions which the step has applied. -/
def applied (e : Execution) : List IssuedAction := Boot.applied e.produced

/-- The state before the applied action of a number; after the last one, the state after the step. -/
def stateAt (e : Execution) (k : Nat) : State := stateAfter 0 (e.applied.take k) e.start.state

def records (e : Execution) : List CommandRecord := written e.flow e.index 0 e.applied e.start.state

/-- What an execution in a run with some outcome has done. The flow holds the step at its index, and the boot
was there whenever an action was applied. The applied actions are the first of the produced ones, in order;
none but the last switches the flow, and if some are left out, then the last one has switched the flow or has
ended the run with its panic. -/
structure Attributed (flows : FlowCatalog) (o : Option Fault) (e : Execution) : Prop where
  found : (flows.steps e.flow)[e.index]? = some e.step
  place : ∀ k < e.applied.length,
    (e.stateAt k).flow = some e.flow ∧ (e.stateAt k).step = (e.index : Int)
  first : e.applied <+: e.produced
  stays : ∀ a ∈ e.applied.dropLast, ∀ f, a.action ≠ .setFlow f
  last : e.applied = e.produced ∨ ∃ a, e.applied.getLast? = some a ∧
    ((∃ f, a.action = .setFlow f) ∨ ∃ reason, a.action = .panic reason ∧ o = some (.panic reason))
  finish : e.finish.state = e.stateAt e.applied.length

end Execution

/-! ## One execution -/

section Begins
variable {flows : FlowCatalog} {b : Boot} {e : Execution}

theorem Execution.Begins.step_eq (h : e.Begins flows b) (hb : -1 ≤ b.state.step) :
    e.start.state.step = (e.index : Int) := by
  have hstart : e.start.state.step = b.state.step + 1 := by
    rw [h.start_eq]
    rfl
  unfold Execution.index
  omega

theorem Execution.Begins.flow_eq (h : e.Begins flows b) : e.start.state.flow = some e.flow := by
  rw [h.start_eq]
  exact h.current

/-- What is left to say of an execution is how it ended. -/
theorem Execution.Begins.attributed (h : e.Begins flows b) (hb : -1 ≤ b.state.step)
    {o : Option Fault}
    (hfinish : e.finish.state = stateAfter 0 e.applied e.start.state)
    (hpanics : ∀ a, e.applied.getLast? = some a → ∀ reason, a.action = .panic reason →
      o = some (.panic reason)) : e.Attributed flows o where
  found := h.found
  place k hk := place_of_lt_length h.flow_eq (h.step_eq hb) hk
  first := isPrefix_applied e.produced
  stays a ha f hf := by
    have hends := not_ends_of_mem_dropLast ha
    rw [hf] at hends
    cases hends
  last := by
    rcases applied_eq_or_ends e.produced with hall | ⟨a, hlast, hends⟩
    · exact Or.inl hall
    · refine Or.inr ⟨a, hlast, ?_⟩
      cases haction : a.action with
      | setFlow f => exact Or.inl ⟨f, rfl⟩
      | panic reason => exact Or.inr ⟨reason, rfl, hpanics a hlast reason haction⟩
      | _ =>
          rw [haction] at hends
          cases hends
  finish := by
    rw [hfinish, Execution.stateAt, List.take_length]

theorem Execution.Attributed.commandLog {o : Option Fault} (h : e.Attributed flows o)
    (hbegins : e.Begins flows b) (hb : -1 ≤ b.state.step) :
    e.finish.state.commandLog = b.state.commandLog ++ e.records := by
  rw [h.finish, Execution.stateAt, List.take_length, Execution.applied,
    commandLog_stateAfter hbegins.flow_eq (hbegins.step_eq hb)]
  have hstart : e.start.state.commandLog = b.state.commandLog := by
    rw [hbegins.start_eq]
    rfl
  rw [hstart]
  rfl

theorem Execution.Attributed.step_ge {o : Option Fault} (h : e.Attributed flows o)
    (hbegins : e.Begins flows b) (hb : -1 ≤ b.state.step) : -1 ≤ e.finish.state.step := by
  have hstep := hbegins.step_eq hb
  have hbound := step_stateAfter 0 e.produced (hstep ▸ Int.natCast_nonneg e.index)
  rw [h.finish, Execution.stateAt, List.take_length, Execution.applied]
  omega

theorem Execution.Begins.attributed_of_ok (h : e.Begins flows b) (hb : -1 ≤ b.state.step)
    (hnext : nextStep flows b = .ok true e.finish) (o : Option Fault) : e.Attributed flows o := by
  obtain ⟨issues, b', hactions, hfinish⟩ := h.of_ok hnext
  have hstep := h.step_eq hb
  have hat : 0 ≤ (begun e.flow e.step e.start).state.step := hstep ▸ Int.natCast_nonneg e.index
  have hspec := applyActions_spec e.flow 0 e.produced (begun e.flow e.step e.start) hat
  rw [hactions] at hspec
  apply h.attributed hb
  · rw [hfinish]
    exact hspec.1
  · intro a hlast reason hreason
    have hcalm := hspec.2 a (List.mem_of_getLast? hlast)
    rw [hreason] at hcalm
    cases hcalm

theorem Execution.Begins.attributed_of_error (h : e.Begins flows b) (hb : -1 ≤ b.state.step)
    {f : Fault} (hnext : nextStep flows b = .error f e.finish) (hleft : b.log.size < b.maxSteps) :
    e.Attributed flows (some f) := by
  have hactions := h.of_error hnext hleft
  have hstep := h.step_eq hb
  have hat : 0 ≤ (begun e.flow e.step e.start).state.step := hstep ▸ Int.natCast_nonneg e.index
  have hspec := applyActions_spec e.flow 0 e.produced (begun e.flow e.step e.start) hat
  rw [hactions] at hspec
  obtain ⟨hstate, a, reason, hlast, hreason, hf⟩ := hspec
  apply h.attributed hb hstate
  intro x hx reason' hreason'
  have hsame : x = a := Option.some.inj (hx.symm.trans hlast)
  rw [hsame, hreason] at hreason'
  cases hreason'
  rw [hf]

end Begins

/-! ## Whole runs -/

theorem exists_cause_of_mem_records {e : Execution} {r : CommandRecord} (h : r ∈ e.records) :
    ∃ (k : Nat) (a : IssuedAction), e.applied[k]? = some a ∧ e.produced[k]? = some a ∧
      r.place = some ⟨some e.flow, e.index, k⟩ ∧ r.action = some a := by
  obtain ⟨k, a, hk, hplace, ha, -⟩ := exists_cause_of_mem_written h
  refine ⟨k, a, hk, ?_, ?_, ha⟩
  · obtain ⟨rest, hrest⟩ := isPrefix_applied e.produced
    have hlt : k < e.applied.length := (List.getElem?_eq_some_iff.mp hk).choose
    have hfirst : (e.applied ++ rest)[k]? = some a := by rwa [List.getElem?_append_left hlt]
    rwa [Execution.applied, hrest] at hfirst
  · rw [hplace, Nat.zero_add]

theorem attributed_of_executes {flows : FlowCatalog} {b last : Boot} {es : List Execution}
    {o : Option Fault} (h : Executes flows b es o last) (hb : -1 ≤ b.state.step) :
    last.state.commandLog = b.state.commandLog ++ es.flatMap Execution.records ∧
      ∀ e ∈ es, e.Attributed flows o := by
  induction h with
  | @ended b b' hnext =>
      refine ⟨?_, fun e he => absurd he List.not_mem_nil⟩
      rw [List.flatMap_nil, List.append_nil]
      rcases eq_of_ended hnext with rfl | rfl <;> rfl
  | @spent b b' f hspent hnext =>
      refine ⟨?_, fun e he => absurd he List.not_mem_nil⟩
      rw [List.flatMap_nil, List.append_nil, eq_of_spent hspent hnext]
      rfl
  | @broke b e f hbegins hnext hleft =>
      have he := hbegins.attributed_of_error hb hnext hleft
      refine ⟨?_, fun x hx => ?_⟩
      · rw [he.commandLog hbegins hb, List.flatMap_singleton]
      · rwa [List.mem_singleton.mp hx]
  | @step b last e es o hbegins hnext _ ih =>
      have he := hbegins.attributed_of_ok hb hnext o
      obtain ⟨hlog, hall⟩ := ih (he.step_ge hbegins hb)
      refine ⟨?_, fun x hx => ?_⟩
      · rw [hlog, he.commandLog hbegins hb, List.flatMap_cons, List.append_assoc]
      · rcases List.mem_cons.mp hx with rfl | hx
        · exact he
        · exact hall x hx

/-- The command log of a run, whether it finishes, panics or exceeds its budget, has grown by what the applied
actions of the executed steps have issued, in the order of the executions, and every new record names one of
these steps and the action of that step which has caused it. -/
theorem complete_attributed (flows : FlowCatalog) (b : Boot) (hb : -1 ≤ b.state.step) :
    ∃ es last, Executes flows b es (complete flows b).1 last ∧
      (complete flows b).2.state = last.state ∧ (complete flows b).2.log = last.log ∧
      last.state.commandLog = b.state.commandLog ++ es.flatMap Execution.records ∧
      (∀ e ∈ es, e.Attributed flows (complete flows b).1) ∧
      ∀ r ∈ es.flatMap Execution.records, ∃ e ∈ es, ∃ (k : Nat) (a : IssuedAction),
        r.place = some ⟨some e.flow, e.index, k⟩ ∧ (flows.steps e.flow)[e.index]? = some e.step ∧
        e.produced[k]? = some a ∧ e.applied[k]? = some a ∧ r.action = some a := by
  obtain ⟨es, last, hexecutes, hstate, hlog⟩ := exists_executes flows b
  obtain ⟨hcommands, hall⟩ := attributed_of_executes hexecutes hb
  refine ⟨es, last, hexecutes, hstate, hlog, hcommands, hall, fun r hr => ?_⟩
  obtain ⟨e, he, hr⟩ := List.mem_flatMap.mp hr
  obtain ⟨k, a, happlied, hproduced, hplace, haction⟩ := exists_cause_of_mem_records hr
  exact ⟨e, he, k, a, hplace, (hall e he).found, hproduced, happlied, haction⟩

/-- A flow whose first step switches to another flow before it measures, and the flow to which it leads. -/
def switchingFlows : FlowCatalog := .ofList [
  ⟨"Leaving", [.script [⟨0, .setFlow ⟨.supplied, "Target"⟩⟩, ⟨1, .measure 0 (.bytes [0]) .separator none⟩]]⟩,
  ⟨"Target", [.initTpm 0 false]⟩]

def switchingBoot : Boot :=
  ofFlow { tpm := some (Tpm.fresh [.sha1]) } ⟨.supplied, "Leaving"⟩ usualMaxSteps

/-- The measurement after the switch is not applied, so the start of the TPM is the only command. -/
theorem complete_attributed_sample : -1 ≤ switchingBoot.state.step ∧
    ∃ es last, Executes switchingFlows switchingBoot es (complete switchingFlows switchingBoot).1 last ∧
      last.state.commandLog = es.flatMap Execution.records ∧
      last.state.commandLog.map CommandRecord.command = [.init 0] := by
  have hstep : -1 ≤ switchingBoot.state.step := by decide
  obtain ⟨es, last, hexecutes, hstate, -, hlog, -⟩ :=
    complete_attributed switchingFlows switchingBoot hstep
  refine ⟨hstep, es, last, hexecutes, hlog, ?_⟩
  rw [← hstate]
  decide +kernel

end MeasuredBoot.Boot
