import MeasuredBoot.Proofs.Boot.Steps

/-!
# The executions of a run

A whole run is a list of executed steps, whatever its end: no step is left, the budget is spent, or an
action panics. Each execution holds the run when the step was begun and when it was done. The derivation
has no fuel; the fuel of the driver is shown to suffice for it, since the budget bounds the steps.
-/
namespace MeasuredBoot.Boot

/-- A step that was executed: its flow, and the run at the step and after it. -/
structure Execution where
  flow : FlowRef
  step : Step
  start : Boot
  finish : Boot

namespace Execution

def index (e : Execution) : Nat := e.start.state.step.toNat

def produced (e : Execution) : List IssuedAction := issuedBy e.step e.start

/-- What a run executes next, if its budget allows. -/
structure Begins (flows : FlowCatalog) (b : Boot) (e : Execution) : Prop where
  current : b.state.flow = some e.flow
  found : (flows.steps e.flow)[e.index]? = some e.step
  start_eq : e.start = moved b

end Execution

/-- The executions of a run until it ends, by itself or with a fault. -/
inductive Executes (flows : FlowCatalog) : Boot → List Execution → Option Fault → Boot → Prop
  | ended {b b' : Boot} : nextStep flows b = .ok false b' → Executes flows b [] none b'
  | spent {b b' : Boot} {f : Fault} : b.maxSteps ≤ b.log.size → nextStep flows b = .error f b' →
      Executes flows b [] (some f) b'
  | broke {b : Boot} {e : Execution} {f : Fault} : e.Begins flows b →
      nextStep flows b = .error f e.finish → b.log.size < b.maxSteps →
      Executes flows b [e] (some f) e.finish
  | step {b last : Boot} {e : Execution} {es : List Execution} {o : Option Fault} :
      e.Begins flows b → nextStep flows b = .ok true e.finish → Executes flows e.finish es o last →
      Executes flows b (e :: es) o last

/-! ## One execution -/

section Begins
variable {flows : FlowCatalog} {b : Boot} {e : Execution}

theorem Execution.Begins.of_ok (h : e.Begins flows b) (hnext : nextStep flows b = .ok true e.finish) :
    ∃ issues b', applyActions e.flow 0 e.produced (begun e.flow e.step e.start) = .ok issues b' ∧
      e.finish = { b' with log := b'.log.push (recordOf e.step e.start b' issues) } := by
  have hspec := nextStep_spec flows b
  rw [hnext] at hspec
  obtain ⟨flow, step, start, finish⟩ := e
  have hstart : start = moved b := h.start_eq
  have hfound := h.found
  simp only [Execution.index, hstart] at hfound
  generalize hresult : (EStateM.Result.ok true finish : EStateM.Result Fault Boot Bool) = r at hspec
  cases hspec with
  | idle _ => cases hresult
  | ended _ _ => cases hresult
  | spent _ _ _ => cases hresult
  | broke _ _ _ _ => cases hresult
  | @done flow' step' issues b' hflow hfound' _ hactions =>
      have hsame : flow' = flow := Option.some.inj (hflow.symm.trans h.current)
      rw [hsame] at hfound' hactions
      have hstep : step' = step := Option.some.inj (hfound'.symm.trans hfound)
      rw [hstep] at hactions hresult
      cases hresult
      rw [← hstart] at hactions
      refine ⟨issues, b', hactions, ?_⟩
      simp only [hstart]

theorem Execution.Begins.exists_record (h : e.Begins flows b)
    (hnext : nextStep flows b = .ok true e.finish) :
    ∃ issues b', applyActions e.flow 0 e.produced (begun e.flow e.step e.start) = .ok issues b' ∧
      e.finish.state = b'.state ∧ e.finish.log = b.log.push (recordOf e.step e.start b' issues) := by
  obtain ⟨issues, b', hactions, hfinish⟩ := h.of_ok hnext
  have hlog : b'.log = b.log := by
    rw [(frame_applyActions hactions).1, h.start_eq]
    rfl
  refine ⟨issues, b', hactions, ?_, ?_⟩
  · rw [hfinish]
  · rw [hfinish, hlog]

theorem Execution.Begins.maxSteps_eq (h : e.Begins flows b)
    (hnext : nextStep flows b = .ok true e.finish) : e.finish.maxSteps = b.maxSteps := by
  obtain ⟨issues, b', hactions, hfinish⟩ := h.of_ok hnext
  have hstart : (begun e.flow e.step e.start).maxSteps = b.maxSteps := by
    rw [h.start_eq]
    rfl
  rw [hfinish]
  exact (frame_applyActions hactions).2.trans hstart

theorem Execution.Begins.of_error (h : e.Begins flows b) {f : Fault}
    (hnext : nextStep flows b = .error f e.finish) (hleft : b.log.size < b.maxSteps) :
    applyActions e.flow 0 e.produced (begun e.flow e.step e.start) = .error f e.finish := by
  have hspec := nextStep_spec flows b
  rw [hnext] at hspec
  obtain ⟨flow, step, start, finish⟩ := e
  have hstart : start = moved b := h.start_eq
  have hfound := h.found
  simp only [Execution.index, hstart] at hfound
  generalize hresult : (EStateM.Result.error f finish : EStateM.Result Fault Boot Bool) = r at hspec
  cases hspec with
  | idle _ => cases hresult
  | ended _ _ => cases hresult
  | spent _ _ hspent => omega
  | done _ _ _ _ => cases hresult
  | @broke flow' step' f' b' hflow hfound' _ hactions =>
      have hsame : flow' = flow := Option.some.inj (hflow.symm.trans h.current)
      rw [hsame] at hfound' hactions
      have hstep : step' = step := Option.some.inj (hfound'.symm.trans hfound)
      rw [hstep] at hactions
      cases hresult
      rwa [← hstart] at hactions

end Begins

/-- A run that has no step left has at most moved past the last one. -/
theorem eq_of_ended {flows : FlowCatalog} {b b' : Boot} (h : nextStep flows b = .ok false b') :
    b' = b ∨ b' = moved b := by
  have hspec := nextStep_spec flows b
  rw [h] at hspec
  cases hspec with
  | idle _ => exact Or.inl rfl
  | ended _ _ => exact Or.inr rfl

theorem eq_of_spent {flows : FlowCatalog} {b b' : Boot} {f : Fault} (hspent : b.maxSteps ≤ b.log.size)
    (h : nextStep flows b = .error f b') : b' = moved b := by
  have hspec := nextStep_spec flows b
  rw [h] at hspec
  cases hspec with
  | spent _ _ _ => rfl
  | broke _ _ hleft _ => omega

theorem exists_budget_of_spent {flows : FlowCatalog} {b b' : Boot} {f : Fault}
    (hspent : b.maxSteps ≤ b.log.size) (h : nextStep flows b = .error f b') :
    ∃ name, f = .budget b.maxSteps name := by
  have hspec := nextStep_spec flows b
  rw [h] at hspec
  cases hspec with
  | @spent flow _ _ _ _ => exact ⟨flow.name, rfl⟩
  | broke _ _ hleft _ => omega

/-! ## Whole runs -/

/-- Enough fuel for the budget is enough for the run. -/
theorem executes_steps (flows : FlowCatalog) (fuel : Nat) (b : Boot) (hfuel : 0 < fuel)
    (hbudget : b.maxSteps - b.log.size < fuel) :
    match steps flows fuel b with
    | .ok _ last => ∃ es, Executes flows b es none last
    | .error f last => ∃ es, Executes flows b es (some f) last := by
  induction fuel generalizing b with
  | zero => omega
  | succ fuel ih =>
      have hspec := nextStep_spec flows b
      rw [steps]
      generalize hnext : nextStep flows b = r at hspec
      cases hspec with
      | idle hflow =>
          rw [bind_of_ok hnext]
          exact ⟨[], .ended hnext⟩
      | ended hflow hend =>
          rw [bind_of_ok hnext]
          exact ⟨[], .ended hnext⟩
      | spent hflow hfound hspent =>
          rw [bind_of_error hnext]
          exact ⟨[], .spent hspent hnext⟩
      | @broke flow step f b' hflow hfound hleft hactions =>
          rw [bind_of_error hnext]
          exact ⟨[⟨flow, step, moved b, b'⟩], .broke ⟨hflow, hfound, rfl⟩ hnext hleft⟩
      | @done flow step issues b' hflow hfound hleft hactions =>
          obtain ⟨hlog, hmax⟩ := frame_applyActions hactions
          have hsize : (b'.log.push (recordOf step (moved b) b' issues)).size = b.log.size + 1 := by
            rw [Array.size_push, hlog]
            rfl
          have hsame : b'.maxSteps = b.maxSteps := hmax
          rw [bind_of_ok hnext]
          simp only [if_true]
          have hbegins : Execution.Begins flows b ⟨flow, step, moved b,
            { b' with log := b'.log.push (recordOf step (moved b) b' issues) }⟩ := ⟨hflow, hfound, rfl⟩
          have hrest := ih { b' with log := b'.log.push (recordOf step (moved b) b' issues) }
            (by omega) (by simp only [hsize, hsame]; omega)
          split at hrest
          · obtain ⟨es, hes⟩ := hrest
            exact ⟨_, .step hbegins hnext hes⟩
          · obtain ⟨es, hes⟩ := hrest
            exact ⟨_, .step hbegins hnext hes⟩

/-- Records are never taken back. -/
theorem Executes.isPrefix_log {flows : FlowCatalog} {b last : Boot} {es : List Execution}
    {o : Option Fault} (h : Executes flows b es o last) : b.log.toList <+: last.log.toList := by
  induction h with
  | ended hnext => rcases eq_of_ended hnext with rfl | rfl <;> exact List.prefix_rfl
  | spent hspent hnext =>
      rw [eq_of_spent hspent hnext]
      exact List.prefix_rfl
  | broke hbegins hnext hleft =>
      rw [(frame_applyActions_error (hbegins.of_error hnext hleft)).1, hbegins.start_eq]
      exact List.prefix_rfl
  | step hbegins hnext _ ih =>
      obtain ⟨issues, b', -, -, hlog⟩ := hbegins.exists_record hnext
      rw [hlog, Array.toList_push] at ih
      exact (List.prefix_append _ _).trans ih

/-- A whole run has executions; only its journal tells its end from that of the last one. -/
theorem exists_executes (flows : FlowCatalog) (b : Boot) :
    ∃ es last, Executes flows b es (complete flows b).1 last ∧
      (complete flows b).2.state = last.state ∧ (complete flows b).2.log = last.log := by
  have hsteps := executes_steps flows ((b.maxSteps - b.log.size).toNat + 1) b (by omega) (by omega)
  have hget : (get : Run Boot) b = .ok b b := rfl
  rw [complete, finish, bind_of_ok hget]
  cases hrun : steps flows ((b.maxSteps - b.log.size).toNat + 1) b with
  | ok _ last =>
      rw [hrun] at hsteps
      obtain ⟨es, hes⟩ := hsteps
      rw [bind_of_ok hrun]
      exact ⟨es, last, hes, rfl, rfl⟩
  | error f last =>
      rw [hrun] at hsteps
      obtain ⟨es, hes⟩ := hsteps
      rw [bind_of_error hrun]
      exact ⟨es, last, hes, rfl, rfl⟩

end MeasuredBoot.Boot
