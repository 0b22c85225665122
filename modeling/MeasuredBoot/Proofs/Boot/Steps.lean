import Mathlib.Data.List.Forall2
import MeasuredBoot.Boot.Run
import MeasuredBoot.Proofs.Lockstep

/-!
# Steps of a run

What executing a step does, case by case: an action is applied and its fault becomes an issue unless it is
a panic; actions are applied one after another until one switches the flow; a step is looked up, its
actions are produced and applied, and a record is written. Everything that holds of a run is proved from
these equations.
-/
namespace MeasuredBoot.Boot

/-! ## Actions -/

section Action
variable {flow : FlowRef} {index : Nat} {a : IssuedAction} {b : Boot} {s : State} {f : Fault}

theorem applyAction_of_ok (h : Action.apply a { b.state with action := index } = .ok () s) :
    applyAction flow index a b = .ok [] { b with state := s } := by
  have hget : (get : Run Boot) { b with state := { b.state with action := index } } =
      .ok { b with state := { b.state with action := index } }
        { b with state := { b.state with action := index } } := rfl
  have hmodify : (modify fun b : Boot => { b with state := { b.state with action := index } } : Run Unit) b =
      .ok () { b with state := { b.state with action := index } } := rfl
  rw [applyAction, bind_of_ok hmodify, bind_of_ok hget]
  simp only [h]
  rfl

theorem applyAction_of_error (flow : FlowRef)
    (h : Action.apply a { b.state with action := index } = .error f s) :
    ∃ b', b'.state = s ∧ b'.log = b.log ∧ b'.maxSteps = b.maxSteps ∧
      applyAction flow index a b =
        if f.isPanic then .error f b' else .ok [⟨some (.action index), f⟩] b' := by
  have hget : (get : Run Boot) { b with state := { b.state with action := index } } =
      .ok { b with state := { b.state with action := index } }
        { b with state := { b.state with action := index } } := rfl
  have hmodify : (modify fun b : Boot => { b with state := { b.state with action := index } } : Run Unit) b =
      .ok () { b with state := { b.state with action := index } } := rfl
  rw [applyAction, bind_of_ok hmodify, bind_of_ok hget]
  simp only [h]
  cases hp : f.isPanic with
  | true => refine ⟨_, ?_, ?_, ?_, rfl⟩ <;> rfl
  | false => refine ⟨_, ?_, ?_, ?_, rfl⟩ <;> rfl

theorem applyActions_cons_of_error {b' : Boot} (h : applyAction flow index a b = .error f b')
    (rest : List IssuedAction) : applyActions flow index (a :: rest) b = .error f b' :=
  bind_of_error h _

theorem applyActions_cons_of_ok {b' : Boot} {issues : List StepIssue}
    (h : applyAction flow index a b = .ok issues b') (rest : List IssuedAction) :
    applyActions flow index (a :: rest) b =
      if b'.state.step = -1 then .ok issues b'
      else ((issues ++ ·) <$> applyActions flow (index + 1) rest) b' := by
  rw [applyActions, bind_of_ok h]
  have hget : (get : Run Boot) b' = .ok b' b' := rfl
  rw [bind_of_ok hget]
  by_cases hstep : b'.state.step = -1
  · rw [if_pos hstep, if_pos hstep]
    rfl
  · rw [if_neg hstep, if_neg hstep, map_eq_pure_bind]

theorem exists_of_applyAction_ok {b' : Boot} {issues : List StepIssue}
    (h : applyAction flow index a b = .ok issues b') : b'.log = b.log ∧ b'.maxSteps = b.maxSteps ∧
      ((Action.apply a { b.state with action := index } = .ok () b'.state ∧ issues = []) ∨
        ∃ f, Action.apply a { b.state with action := index } = .error f b'.state ∧
          issues = [⟨some (.action index), f⟩]) := by
  cases hcase : Action.apply a { b.state with action := index } with
  | ok _ s =>
      rw [applyAction_of_ok hcase] at h
      cases h
      exact ⟨rfl, rfl, Or.inl ⟨rfl, rfl⟩⟩
  | error f s =>
      obtain ⟨w, rfl, hlog, hmax, heq⟩ := applyAction_of_error flow hcase
      rw [heq] at h
      split at h
      · cases h
      · cases h
        exact ⟨hlog, hmax, Or.inr ⟨f, rfl, rfl⟩⟩

theorem exists_of_applyActions_cons {rest : List IssuedAction} {b' : Boot} {issues : List StepIssue}
    (h : applyActions flow index (a :: rest) b = .ok issues b') :
    ∃ first v, applyAction flow index a b = .ok first v ∧
      ((v.state.step = -1 ∧ issues = first ∧ b' = v) ∨
        (v.state.step ≠ -1 ∧ ∃ later, applyActions flow (index + 1) rest v = .ok later b' ∧
          issues = first ++ later)) := by
  obtain ⟨first, v, hfirst, -⟩ := bind_run_eq_ok_iff.mp h
  rw [applyActions_cons_of_ok hfirst] at h
  refine ⟨first, v, hfirst, ?_⟩
  split at h
  · rename_i hswitched
    cases h
    exact Or.inl ⟨hswitched, rfl, rfl⟩
  · rename_i hstayed
    rw [map_eq_pure_bind] at h
    obtain ⟨later, w, hlater, hpure⟩ := bind_run_eq_ok_iff.mp h
    cases hpure
    exact Or.inr ⟨hstayed, later, hlater, rfl⟩

end Action

/-- Actions change neither the records of the run nor its budget. -/
theorem frame_applyActions {flow : FlowRef} {index : Nat} {actions : List IssuedAction} {b b' : Boot}
    {issues : List StepIssue} (h : applyActions flow index actions b = .ok issues b') :
    b'.log = b.log ∧ b'.maxSteps = b.maxSteps := by
  induction actions generalizing index b issues with
  | nil =>
      cases h
      exact ⟨rfl, rfl⟩
  | cons a rest ih =>
      obtain ⟨first, v, hfirst, hrest⟩ := exists_of_applyActions_cons h
      obtain ⟨hlog, hmax, -⟩ := exists_of_applyAction_ok hfirst
      rcases hrest with ⟨-, -, rfl⟩ | ⟨-, later, hlater, -⟩
      · exact ⟨hlog, hmax⟩
      · obtain ⟨hlog', hmax'⟩ := ih hlater
        exact ⟨hlog'.trans hlog, hmax'.trans hmax⟩

theorem frame_applyActions_error {flow : FlowRef} {index : Nat} {actions : List IssuedAction}
    {b b' : Boot} {f : Fault} (h : applyActions flow index actions b = .error f b') :
    b'.log = b.log ∧ b'.maxSteps = b.maxSteps := by
  induction actions generalizing index b with
  | nil => cases h
  | cons a rest ih =>
      cases hfirst : applyAction flow index a b with
      | error e v =>
          rw [applyActions_cons_of_error hfirst] at h
          cases h
          cases happly : Action.apply a { b.state with action := index } with
          | ok _ s =>
              rw [applyAction_of_ok happly] at hfirst
              cases hfirst
          | error e' s =>
              obtain ⟨w, -, hlog, hmax, heq⟩ := applyAction_of_error flow happly
              rw [heq] at hfirst
              split at hfirst
              · cases hfirst
                exact ⟨hlog, hmax⟩
              · cases hfirst
      | ok first v =>
          obtain ⟨hlog, hmax, -⟩ := exists_of_applyAction_ok hfirst
          rw [applyActions_cons_of_ok hfirst] at h
          split at h
          · cases h
          · rw [map_eq_pure_bind] at h
            cases hrest : applyActions flow (index + 1) rest v with
            | ok later w =>
                rw [bind_of_ok hrest] at h
                cases h
            | error e w =>
                rw [bind_of_error hrest] at h
                cases h
                obtain ⟨hlog', hmax'⟩ := ih hrest
                exact ⟨hlog'.trans hlog, hmax'.trans hmax⟩

/-- Actions that keep an invariant and fail with one kind of fault only do so together; the number of the
present action must not matter to the invariant. -/
theorem keeps_applyActions {Inv : State → Prop} {Kind : Fault → Prop} {flow : FlowRef} {index : Nat}
    {actions : List IssuedAction} {b b' : Boot} {issues : List StepIssue}
    (hnumber : ∀ (s : State) (k : Int), Inv s → Inv { s with action := k })
    (hactions : ∀ a ∈ actions, Keeps Inv Kind (Action.apply a)) (hb : Inv b.state)
    (h : applyActions flow index actions b = .ok issues b') :
    Inv b'.state ∧ ∀ i ∈ issues, Kind i.fault := by
  induction actions generalizing index b issues with
  | nil =>
      cases h
      exact ⟨hb, fun i hi => absurd hi List.not_mem_nil⟩
  | cons a rest ih =>
      have hkeeps := hactions a (by simp)
      have hstart := hnumber b.state index hb
      have hstays := hkeeps.stays _ hstart
      obtain ⟨first, v, hfirst, hrest⟩ := exists_of_applyActions_cons h
      have hdone : Inv v.state ∧ ∀ i ∈ first, Kind i.fault := by
        obtain ⟨-, -, ⟨happly, rfl⟩ | ⟨f, happly, rfl⟩⟩ := exists_of_applyAction_ok hfirst
        · rw [after_of_ok happly] at hstays
          exact ⟨hstays, fun i hi => absurd hi List.not_mem_nil⟩
        · rw [after_of_error happly] at hstays
          refine ⟨hstays, fun i hi => ?_⟩
          rw [List.mem_singleton.mp hi]
          exact hkeeps.faults _ hstart f _ happly
      rcases hrest with ⟨-, rfl, rfl⟩ | ⟨-, later, hlater, rfl⟩
      · exact hdone
      · obtain ⟨hinv, hlast⟩ := ih (fun x hx => hactions x (by simp [hx])) hdone.1 hlater
        refine ⟨hinv, fun i hi => ?_⟩
        rcases List.mem_append.mp hi with hi | hi
        · exact hdone.2 i hi
        · exact hlast i hi

/-! ## Actions of two runs -/

/-- A relation of runs that rests on one of their states and otherwise does not look at the journal, nor at the
number of the present action. -/
structure Relates (S : State → State → Prop) (R : Boot → Boot → Prop) : Prop where
  state {b b' : Boot} : R b b' → S b.state b'.state
  withState {b b' : Boot} {s s' : State} : R b b' → S s s' →
    R { b with state := s } { b' with state := s' }
  withJournal {b b' : Boot} (line line' : JournalLine) : R b b' →
    R { b with journal := b.journal.push line } { b' with journal := b'.journal.push line' }
  withAction {s s' : State} (k : Int) : S s s' → S { s with action := k } { s' with action := k }
  step_eq {s s' : State} : S s s' → s'.step = s.step

namespace Relates
variable {S : State → State → Prop} {R : Boot → Boot → Prop} (h : Relates S R)
include h

theorem lockstep_note (level : Level) (text text' : String) :
    Lockstep R (note level text) (note level text') := .modify fun _ _ hb => h.withJournal _ _ hb

theorem lockstep_applyAction (flow : FlowRef) (index : Nat) {a a' : IssuedAction}
    (ha : Lockstep S (Action.apply a) (Action.apply a')) :
    Lockstep R (applyAction flow index a) (applyAction flow index a') := by
  unfold applyAction
  refine Lockstep.bind (.modify fun b b' hb => h.withState hb (h.withAction index (h.state hb))) fun _ => ?_
  refine .get_bind fun b b' hb => ?_
  have hends := ha b.state b'.state (h.state hb)
  cases hx : Action.apply a b.state <;> cases hy : Action.apply a' b'.state <;> rw [hx, hy] at hends
  · exact Lockstep.bind (.set (h.withState hb hends.2)) fun _ => .pure []
  · cases hends
  · cases hends
  · rename_i f s g s'
    obtain ⟨rfl, hs⟩ := hends
    refine Lockstep.bind (.set (h.withState hb hs)) fun _ => ?_
    split
    · exact Lockstep.bind (h.lockstep_note _ _ _) fun _ => .bind (.throw _) fun _ =>
        .bind (h.lockstep_note _ _ _) fun _ => .pure _
    · exact Lockstep.bind (h.lockstep_note _ _ _) fun _ => .pure _

theorem lockstep_applyActions (flow : FlowRef) (index : Nat) {actions actions' : List IssuedAction}
    (hactions : List.Forall₂ (fun a a' => Lockstep S (Action.apply a) (Action.apply a')) actions actions') :
    Lockstep R (applyActions flow index actions) (applyActions flow index actions') := by
  induction hactions generalizing index with
  | nil => exact .pure []
  | cons hfirst _ ih =>
      rw [applyActions, applyActions]
      refine (h.lockstep_applyAction flow index hfirst).bind fun issues => .get_bind fun b b' hb => ?_
      rw [h.step_eq (h.state hb)]
      split
      · exact .pure issues
      · exact (ih (index + 1)).bind fun later => .pure (issues ++ later)

end Relates

/-! ## Steps -/

theorem map_action_identify (next : Nat) (produced : List Step.Produced) :
    (identify next produced).map IssuedAction.action = produced.map Prod.snd := by
  induction produced generalizing next with
  | nil => rfl
  | cons x rest ih =>
      obtain ⟨number, action⟩ := x
      cases number with
      | none => rw [identify, List.map_cons, ih, List.map_cons]
      | some n => rw [identify, List.map_cons, ih, List.map_cons]

theorem exists_of_mem_identify {next : Nat} {produced : List Step.Produced} {a : IssuedAction}
    (h : a ∈ identify next produced) : ∃ x ∈ produced, x.2 = a.action := by
  have hmem := List.mem_map_of_mem (f := IssuedAction.action) h
  rw [map_action_identify] at hmem
  exact List.mem_map.mp hmem

theorem map_snd_newly (actions : List Action) : (Step.newly actions).map Prod.snd = actions := by
  rw [Step.newly, List.map_map]
  exact List.map_id actions

theorem map_action_newly (next : Nat) (actions : List Action) :
    (identify next (Step.newly actions)).map IssuedAction.action = actions := by
  rw [map_action_identify, map_snd_newly]

theorem forall₂_identify {R : Action → Action → Prop} {produced produced' : List Step.Produced}
    (h : List.Forall₂ R (produced.map Prod.snd) (produced'.map Prod.snd)) (n n' : Nat) :
    List.Forall₂ (fun x x' => R x.action x'.action) (identify n produced) (identify n' produced') := by
  rw [← map_action_identify n, ← map_action_identify n'] at h
  exact List.forall₂_map_right_iff.mp (List.forall₂_map_left_iff.mp h)

/-- A run in which a step has been looked up and its actions numbered. -/
def begun (flow : FlowRef) (step : Step) (b : Boot) : Boot := { b with
  issued := b.issued + (produce step b.state).1.length
  journal := b.journal.push ⟨.debug, "[engine] " ++ flow.name ++ ":" ++ Text.decimal b.state.step ++ " "
    ++ step.text⟩ }

def issuedBy (step : Step) (b : Boot) : List IssuedAction := identify b.issued (produce step b.state).1

theorem executeStep_of_error {flow : FlowRef} {step : Step} {b b' : Boot} {f : Fault}
    (h : applyActions flow 0 (issuedBy step b) (begun flow step b) = .error f b') :
    executeStep flow step b = .error f b' := by
  unfold executeStep
  exact bind_of_error h _

/-- The record of a step that was begun in one state of a run and done in another. -/
def recordOf (step : Step) (b b' : Boot) (issues : List StepIssue) : StepRecord where
  actor := b'.state.actor
  code := (actorCode b'.state).1
  step := step
  actions := issuedBy step b
  measured :=
    (b'.state.measured.extract b.state.measured.size b'.state.measured.size).toList
  verified :=
    (b'.state.verified.extract b.state.verified.size b'.state.verified.size).toList
  issues := (produce step b.state).2 ++ issues ++ (actorCode b'.state).2

theorem executeStep_of_ok {flow : FlowRef} {step : Step} {b b' : Boot} {issues : List StepIssue}
    (h : applyActions flow 0 (issuedBy step b) (begun flow step b) = .ok issues b') :
    executeStep flow step b = .ok () { b' with log := b'.log.push (recordOf step b b' issues) } := by
  unfold executeStep
  exact bind_of_ok h _

def moved (b : Boot) : Boot := { b with state := { b.state with step := b.state.step + 1 } }

section Next
variable {flows : FlowCatalog} {b b' : Boot} {flow : FlowRef} {step : Step}

theorem nextStep_of_no_flow (h : b.state.flow = none) : nextStep flows b = .ok false b := by
  have hget : (get : Run Boot) b = .ok b b := rfl
  rw [nextStep, bind_of_ok hget, h]
  rfl

theorem nextStep_eq (h : b.state.flow = some flow) :
    nextStep flows b =
      match (flows.steps flow)[(moved b).state.step.toNat]? with
      | none => .ok false (moved b)
      | some step =>
        if b.maxSteps ≤ b.log.size then .error (.budget b.maxSteps flow.name) (moved b)
        else ((fun _ => true) <$> executeStep flow step) (moved b) := by
  have hget : (get : Run Boot) b = .ok b b := rfl
  have hmoved : (get : Run Boot) (moved b) = .ok (moved b) (moved b) := rfl
  have hmodify : (modify fun b : Boot => { b with state := { b.state with step := b.state.step + 1 } } :
      Run Unit) b = .ok () (moved b) := rfl
  rw [nextStep, bind_of_ok hget, h]
  simp only
  rw [bind_of_ok hmodify, bind_of_ok hmoved]
  cases (flows.steps flow)[(moved b).state.step.toNat]? with
  | none => rfl
  | some step =>
      simp only
      by_cases hbudget : b.maxSteps ≤ b.log.size
      · have hbudget' : (moved b).maxSteps ≤ (moved b).log.size := hbudget
        rw [if_pos hbudget, if_pos hbudget']
        rfl
      · have hbudget' : ¬ (moved b).maxSteps ≤ (moved b).log.size := hbudget
        rw [if_neg hbudget, if_neg hbudget', map_eq_pure_bind]

end Next

/-- What the next step of a run can be: there is no flow, or no step is left of it; the budget is spent;
one of the actions ends the run; or all of them are done and a record is written. -/
inductive Next (flows : FlowCatalog) (b : Boot) : EStateM.Result Fault Boot Bool → Prop
  | idle : b.state.flow = none → Next flows b (.ok false b)
  | ended {flow : FlowRef} : b.state.flow = some flow →
      (flows.steps flow)[(moved b).state.step.toNat]? = none → Next flows b (.ok false (moved b))
  | spent {flow : FlowRef} {step : Step} : b.state.flow = some flow →
      (flows.steps flow)[(moved b).state.step.toNat]? = some step → b.maxSteps ≤ b.log.size →
      Next flows b (.error (.budget b.maxSteps flow.name) (moved b))
  | broke {flow : FlowRef} {step : Step} {f : Fault} {b' : Boot} : b.state.flow = some flow →
      (flows.steps flow)[(moved b).state.step.toNat]? = some step → b.log.size < b.maxSteps →
      applyActions flow 0 (issuedBy step (moved b)) (begun flow step (moved b)) = .error f b' →
      Next flows b (.error f b')
  | done {flow : FlowRef} {step : Step} {issues : List StepIssue} {b' : Boot} :
      b.state.flow = some flow →
      (flows.steps flow)[(moved b).state.step.toNat]? = some step → b.log.size < b.maxSteps →
      applyActions flow 0 (issuedBy step (moved b)) (begun flow step (moved b)) = .ok issues b' →
      Next flows b (.ok true { b' with log := b'.log.push (recordOf step (moved b) b' issues) })

theorem nextStep_spec (flows : FlowCatalog) (b : Boot) : Next flows b (nextStep flows b) := by
  cases hflow : b.state.flow with
  | none =>
      rw [nextStep_of_no_flow hflow]
      exact .idle hflow
  | some flow =>
      rw [nextStep_eq hflow]
      cases hfound : (flows.steps flow)[(moved b).state.step.toNat]? with
      | none => exact .ended hflow hfound
      | some step =>
          simp only
          by_cases hbudget : b.maxSteps ≤ b.log.size
          · rw [if_pos hbudget]
            exact .spent hflow hfound hbudget
          · rw [if_neg hbudget, map_eq_pure_bind]
            have hleft : (b.log.size : Int) < b.maxSteps := Int.not_le.mp hbudget
            cases hactions : applyActions flow 0 (issuedBy step (moved b))
                (begun flow step (moved b)) with
            | error f b' =>
                rw [bind_of_error (executeStep_of_error hactions)]
                exact .broke hflow hfound hleft hactions
            | ok issues b' =>
                rw [bind_of_ok (executeStep_of_ok hactions)]
                exact .done hflow hfound hleft hactions

/-- A state of a run that some number of steps leads to; the last of them may have failed. -/
inductive Reaches (flows : FlowCatalog) (b : Boot) : Boot → Prop
  | start : Reaches flows b b
  | next {b' b'' : Boot} {more : Bool} : Reaches flows b b' → nextStep flows b' = .ok more b'' →
      Reaches flows b b''
  | failed {b' b'' : Boot} {f : Fault} : Reaches flows b b' → nextStep flows b' = .error f b'' →
      Reaches flows b b''

theorem Reaches.after {flows : FlowCatalog} {b b' : Boot} (h : Reaches flows b b') :
    Reaches flows b (after (nextStep flows) b') := by
  unfold MeasuredBoot.after
  cases hstep : nextStep flows b' with
  | ok more b'' => exact .next h hstep
  | error f b'' => exact .failed h hstep

/-- What every step keeps holds wherever a run gets to. -/
theorem Reaches.stays {flows : FlowCatalog} {Inv : Boot → Prop} {b b' : Boot} (h : Reaches flows b b')
    (hnext : Stays Inv (nextStep flows)) (hb : Inv b) : Inv b' := by
  induction h with
  | start => exact hb
  | @next b' b'' more _ hstep ih => exact after_of_ok hstep ▸ hnext b' ih
  | @failed b' b'' f _ hstep ih => exact after_of_error hstep ▸ hnext b' ih

theorem reaches_steps (flows : FlowCatalog) (fuel : Nat) {b b' : Boot} (h : Reaches flows b b') :
    Reaches flows b (MeasuredBoot.after (steps flows fuel) b') := by
  induction fuel generalizing b' with
  | zero => exact h
  | succ fuel ih =>
      cases hstep : nextStep flows b' with
      | error f b'' =>
          rw [MeasuredBoot.after, steps, bind_of_error hstep]
          exact .failed h hstep
      | ok more b'' =>
          have hnext : Reaches flows b b'' := .next h hstep
          rw [MeasuredBoot.after, steps, bind_of_ok hstep]
          cases more with
          | true => exact ih hnext
          | false => exact hnext

/-- A whole run ends in a state that its steps reach; only its journal is longer. -/
theorem exists_reaches_complete (flows : FlowCatalog) (b : Boot) :
    ∃ b', Reaches flows b b' ∧ (complete flows b).2.state = b'.state := by
  have hsteps := reaches_steps flows ((b.maxSteps - b.log.size).toNat + 1) (.start : Reaches flows b b)
  refine ⟨_, hsteps, ?_⟩
  have hget : (get : Run Boot) b = .ok b b := rfl
  rw [complete, finish, bind_of_ok hget, MeasuredBoot.after]
  cases hrun : steps flows ((b.maxSteps - b.log.size).toNat + 1) b with
  | error f b' => rw [bind_of_error hrun]
  | ok _ b' =>
      rw [bind_of_ok hrun]
      rfl

end MeasuredBoot.Boot
