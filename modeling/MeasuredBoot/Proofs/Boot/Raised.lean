import MeasuredBoot.Proofs.Boot.Evidenced
import MeasuredBoot.Proofs.Step.Effect

/-!
# The issues of a run

Whatever goes wrong in a step and does not end the run is an issue of its record: the fault with which the
step has failed to produce its actions, those of the actions that were applied, each under the number of its
action, and the fault with which the code of the actor has failed to resolve. A run writes one record for
each execution, but for the one that is broken off by a panic; and no issue is a panic.
-/
namespace MeasuredBoot

theorem Fault.OfData.not_isPanic {f : Fault} (h : f.OfData) : f.isPanic = false :=
  OfCommand.not_isPanic (.of_ofData h)

abbrev NoPanic {α : Type} (x : Except Fault α) : Prop := FaultsWithin (fun f => f.isPanic = false) x

theorem noPanic_of_onData {α : Type} {x : Except Fault α} (h : OnData x) : NoPanic x :=
  h.mono fun _ => Fault.OfData.not_isPanic

/-- A step may produce a panic, but producing its actions is none. -/
theorem Step.noPanic_actions (s : State) (step : Step) : NoPanic (step.actions s) := by
  induction step with
  | whenHolds c inner ih =>
      rw [actions]
      split
      · exact ih
      · exact .ok _
  | choose c inner other ih ihother =>
      rw [actions]
      split
      · exact ih
      · exact ihother
  | initTpm locality logged =>
      cases logged with
      | false => exact .ok _
      | true => exact (noPanic_of_onData (onData_localityEvents s locality)).bind fun _ _ => .ok _
  | initTpmLazily locality =>
      rw [actions]
      split <;> exact .ok _
  | verify subject fallback =>
      rw [actions]
      split <;> exact .ok _
  | measurePcr0Data => exact (noPanic_of_onData (onData_pcr0DataActions s)).map newly
  | psp m => exact (noPanic_of_onData (onData_pspActions s m)).map newly
  | broken message => exact .error rfl
  | _ => exact .ok _

namespace Boot

/-! ## Issues of applied actions -/

/-- The issue of an action that was applied as the one of a number, if it has failed. -/
def Application.issue? (x : Application) (index : Nat) : Option StepIssue :=
  x.fault?.map fun f => ⟨some (.action index), f⟩

def raised (index : Nat) : List Application → List StepIssue
  | [] => []
  | x :: rest => (x.issue? index).toList ++ raised (index + 1) rest

section Action
variable {flow : FlowRef} {index : Nat} {a : IssuedAction} {b b' : Boot} {issues : List StepIssue}

/-- An action that has not ended the run is no panic, and its fault is its one issue. -/
theorem issue_of_applyAction (h : applyAction flow index a b = .ok issues b') :
    a.action.panics = false ∧ b'.state = after (Action.apply a) { b.state with action := index } ∧
      issues = (Application.issue? ⟨a, { b.state with action := index }⟩ index).toList := by
  refine ⟨?_, ?_⟩
  · cases hpanics : a.action.panics with
    | false => rfl
    | true =>
        obtain ⟨reason, hreason⟩ := Action.exists_reason_of_panics hpanics
        obtain ⟨w, hfailed, -⟩ := applyAction_of_panic flow index b hreason
        cases hfailed.symm.trans h
  · rw [Application.issue?, Application.fault?]
    obtain ⟨-, -, ⟨happly, rfl⟩ | ⟨f, happly, rfl⟩⟩ := exists_of_applyAction_ok h
    · exact ⟨(after_of_ok happly).symm, by rw [happly]; rfl⟩
    · exact ⟨(after_of_error happly).symm, by rw [happly]; rfl⟩

/-- The issues of the actions of a step are the faults of those that were applied. -/
theorem issues_of_applyActions {actions : List IssuedAction} (hstep : 0 ≤ b.state.step)
    (h : applyActions flow index actions b = .ok issues b') :
    issues = raised index (applications index (applied actions) b.state) := by
  induction actions generalizing index b issues with
  | nil =>
      cases h
      rfl
  | cons a rest ih =>
      obtain ⟨first, v, hfirst, hrest⟩ := exists_of_applyActions_cons h
      obtain ⟨hcalm, hstate, hissue⟩ := issue_of_applyAction hfirst
      have hswitches := step_after_apply a index hstep
      rw [← hstate] at hswitches
      rw [applied, applications, raised, ← hissue, ← hstate]
      rcases hrest with ⟨hleft, rfl, rfl⟩ | ⟨hstayed, later, hlater, rfl⟩
      · have hends : a.action.ends = true := by
          rw [Action.ends, hswitches.mp hleft, Bool.true_or]
        rw [if_pos hends, applications, raised, List.append_nil]
      · have hstays : a.action.switches = false :=
          Bool.eq_false_iff.mpr fun hleaves => hstayed (hswitches.mpr hleaves)
        have hends : ¬ a.action.ends = true := by
          rw [Action.ends, hstays, hcalm, Bool.or_false]
          exact Bool.false_ne_true
        have hat : 0 ≤ v.state.step := by
          rw [hstate, (place_after_apply index b.state hstays).2]
          exact hstep
        rw [if_neg hends, ih hat hlater]

end Action

theorem noPanic_of_mem_raised {index : Nat} {xs : List Application} {i : StepIssue}
    (hcalm : ∀ x ∈ xs, x.cause.action.panics = false) (h : i ∈ raised index xs) :
    i.fault.isPanic = false := by
  induction xs generalizing index with
  | nil => cases h
  | cons x rest ih =>
      rcases List.mem_append.mp h with h | h
      · rw [Option.mem_toList, Application.issue?, Application.fault?] at h
        split at h
        · cases h
        · rename_i f s hfailed
          cases h
          rw [Action.isPanic_of_error hfailed]
          exact hcalm x (by simp)
      · exact ih (fun y hy => hcalm y (by simp [hy])) h

/-! ## Issues of a step -/

/-- The issues of a record are of a kind if data can cause it, and the production and the application of the
actions raise nothing else. -/
theorem faults_recordOf {Kind : Fault → Prop} {step : Step} {b b' : Boot} {issues : List StepIssue}
    (hdata : ∀ f : Fault, f.OfData → Kind f) (hproduced : FaultsWithin Kind (step.actions b.state))
    (hissues : ∀ i ∈ issues, Kind i.fault) : ∀ i ∈ (recordOf step b b' issues).issues, Kind i.fault := by
  intro i hi
  rcases List.mem_append.mp hi with hi | hi
  · rcases List.mem_append.mp hi with hi | hi
    · unfold produce at hi
      split at hi
      · cases hi
      · rename_i f hf
        rw [List.mem_singleton.mp hi]
        exact hproduced f hf
    · exact hissues i hi
  · unfold actorCode at hi
    split at hi
    · cases hi
    · rename_i source _
      split at hi
      · cases hi
      · rename_i f hf
        rw [List.mem_singleton.mp hi]
        exact hdata f (Source.onData_resolve b'.state source f hf)

namespace Execution

/-- All that has gone wrong in a step: when its actions were produced, when they were applied, and when the
code of the actor was looked up who ran in the end. -/
def issues (e : Execution) : List StepIssue :=
  (produce e.step e.start.state).2 ++ raised 0 e.applications ++ (actorCode e.finish.state).2

/-- A record that tells what an execution has produced and all that has gone wrong in it. -/
structure ToldBy (e : Execution) (r : StepRecord) : Prop where
  step : r.step = e.step
  actions : r.actions = e.produced
  issues : r.issues = e.issues
  calm : ∀ i ∈ r.issues, i.fault.isPanic = false

/-- An execution that was broken off by the panic of the last action it has applied. -/
def BrokenBy (reason : String) (e : Execution) : Prop :=
  ∃ xs x, e.applications = xs ++ [x] ∧ x.cause.action = .panic reason ∧
    x.fault? = some (.panic reason) ∧ ∀ y ∈ xs, y.cause.action.panics = false

section Begins
variable {flows : FlowCatalog} {b : Boot} {e : Execution}

theorem Begins.step_nonneg (h : e.Begins flows b) (hb : -1 ≤ b.state.step) :
    0 ≤ (begun e.flow e.step e.start).state.step := h.step_eq hb ▸ Int.natCast_nonneg e.index

theorem Begins.exists_toldBy (h : e.Begins flows b) (hb : -1 ≤ b.state.step)
    (hnext : nextStep flows b = .ok true e.finish) :
    ∃ r, e.finish.log = b.log.push r ∧ e.ToldBy r := by
  obtain ⟨issues, b', hactions, hstate, hlog⟩ := h.exists_record hnext
  have hraised := issues_of_applyActions (h.step_nonneg hb) hactions
  have hspec := applyActions_spec e.flow 0 e.produced (begun e.flow e.step e.start) (h.step_nonneg hb)
  rw [hactions] at hspec
  have hcalm : ∀ x ∈ e.applications, x.cause.action.panics = false := by
    intro x hx
    apply hspec.2
    have hmem := List.mem_map_of_mem (f := Application.cause) hx
    rwa [Execution.applications, map_cause_applications] at hmem
  have hissues : (recordOf e.step e.start b' issues).issues = e.issues := by
    rw [recordOf, Execution.issues, hstate, hraised]
    rfl
  refine ⟨_, hlog, rfl, rfl, hissues, faults_recordOf (fun f hf => hf.not_isPanic)
    (e.step.noPanic_actions e.start.state) fun i hi => ?_⟩
  rw [hraised] at hi
  exact noPanic_of_mem_raised hcalm hi

theorem Begins.exists_brokenBy (h : e.Begins flows b) (hb : -1 ≤ b.state.step) {f : Fault}
    (hnext : nextStep flows b = .error f e.finish) (hleft : b.log.size < b.maxSteps) :
    ∃ reason, f = .panic reason ∧ e.BrokenBy reason := by
  have hspec := applyActions_spec e.flow 0 e.produced (begun e.flow e.step e.start) (h.step_nonneg hb)
  rw [h.of_error hnext hleft] at hspec
  obtain ⟨-, a, reason, hlast, ha, rfl⟩ := hspec
  refine ⟨reason, rfl, ?_⟩
  have hcauses : e.applications.map Application.cause = e.applied :=
    map_cause_applications 0 e.applied e.start.state
  have hsplit : e.applied = e.applied.dropLast ++ [a] :=
    (List.dropLast_append_getLast? a hlast).symm
  rw [hsplit] at hcauses
  obtain ⟨xs, ys, happlications, hxs, hys⟩ := List.map_eq_append_iff.mp hcauses
  obtain ⟨x, rfl, rfl⟩ := List.map_eq_singleton_iff.mp hys
  refine ⟨xs, x, happlications, ha, ?_, fun y hy => ?_⟩
  · rw [Application.fault?, Action.apply, ha]
    rfl
  · have hmem : y.cause ∈ e.applied.dropLast := hxs ▸ List.mem_map_of_mem hy
    exact (Bool.or_eq_false_iff.mp (not_ends_of_mem_dropLast hmem)).2

end Begins
end Execution

/-! ## Whole runs -/

/-- How a run with a budget ends, and which execution has no record: by itself or at the budget, and then
none, or with the panic of an action, and then the last. -/
inductive EndsWith (maxSteps : Int) : Option Fault → List Execution → Prop
  | done : EndsWith maxSteps none []
  | spent (name : String) : EndsWith maxSteps (some (.budget maxSteps name)) []
  | broken {e : Execution} {reason : String} : e.BrokenBy reason →
      EndsWith maxSteps (some (.panic reason)) [e]

/-- A run writes a record for each execution that was not broken off. -/
theorem told_of_executes {flows : FlowCatalog} {b last : Boot} {es : List Execution} {o : Option Fault}
    (h : Executes flows b es o last) (hb : -1 ≤ b.state.step) :
    ∃ done broken records, es = done ++ broken ∧ EndsWith b.maxSteps o broken ∧
      last.log.toList = b.log.toList ++ records ∧ List.Forall₂ Execution.ToldBy done records := by
  induction h with
  | @ended b b' hnext =>
      refine ⟨[], [], [], rfl, .done, ?_, .nil⟩
      rcases eq_of_ended hnext with rfl | rfl <;> exact (List.append_nil _).symm
  | @spent b b' f hspent hnext =>
      obtain ⟨name, rfl⟩ := exists_budget_of_spent hspent hnext
      refine ⟨[], [], [], rfl, .spent name, ?_, .nil⟩
      rw [eq_of_spent hspent hnext]
      exact (List.append_nil _).symm
  | @broke b e f hbegins hnext hleft =>
      obtain ⟨reason, rfl, hbroken⟩ := hbegins.exists_brokenBy hb hnext hleft
      refine ⟨[], [e], [], rfl, .broken hbroken, ?_, .nil⟩
      rw [(frame_applyActions_error (hbegins.of_error hnext hleft)).1, hbegins.start_eq]
      exact (List.append_nil _).symm
  | @step b last e es o hbegins hnext _ ih =>
      obtain ⟨r, hlog, hr⟩ := hbegins.exists_toldBy hb hnext
      obtain ⟨done, broken, records, rfl, hends, hrecords, htold⟩ :=
        ih ((hbegins.attributed_of_ok hb hnext none).step_ge hbegins hb)
      refine ⟨e :: done, broken, r :: records, rfl, hbegins.maxSteps_eq hnext ▸ hends, ?_, .cons hr htold⟩
      rw [hrecords, hlog, Array.toList_push, List.append_assoc]
      rfl

end Boot
end MeasuredBoot
