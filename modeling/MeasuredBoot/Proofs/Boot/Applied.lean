import MeasuredBoot.Proofs.Action.Issued
import MeasuredBoot.Proofs.Boot.Steps

/-!
# The applied actions of a step

Of the actions which a step produces, those up to the first that switches the flow or panics are applied.
The state after the step is the state after these, and the command log has grown by what they issue: each
record at the place of the step and under the number of its action. Until the last of them the boot has not
left the step.
-/
namespace MeasuredBoot

/-- True of an action after which no other action of its step is applied. -/
def Action.ends (a : Action) : Bool := a.switches || a.panics

namespace Boot

/-- The actions up to the first that ends their step. -/
def applied : List IssuedAction → List IssuedAction
  | [] => []
  | a :: rest => a :: if a.action.ends then [] else applied rest

/-- The state after actions that are applied one after another, numbered from `index` on. -/
def stateAfter (index : Nat) : List IssuedAction → State → State
  | [], s => s
  | a :: rest, s => stateAfter (index + 1) rest (after (Action.apply a) { s with action := index })

def written (flow : FlowRef) (step : Int) (index : Nat) : List IssuedAction → State → List CommandRecord
  | [], _ => []
  | a :: rest, s =>
    ((Action.issues { s with action := index } a.action).map fun c =>
        ⟨c, some ⟨some flow, step, index⟩, some a⟩) ++
      written flow step (index + 1) rest (after (Action.apply a) { s with action := index })

theorem switches_of_ends {a : Action} (h : a.ends = false) : a.switches = false :=
  (Bool.or_eq_false_iff.mp h).1

theorem isPrefix_applied (actions : List IssuedAction) : applied actions <+: actions := by
  induction actions with
  | nil => exact List.prefix_rfl
  | cons a rest ih =>
      rw [applied, List.prefix_cons_inj]
      split
      · exact List.nil_prefix
      · exact ih

/-- The applied actions are all actions, or they end with one that ends the step. -/
theorem applied_eq_or_ends (actions : List IssuedAction) :
    applied actions = actions ∨ ∃ a, (applied actions).getLast? = some a ∧ a.action.ends = true := by
  induction actions with
  | nil => exact Or.inl rfl
  | cons a rest ih =>
      rw [applied]
      cases hends : a.action.ends with
      | true => exact Or.inr ⟨a, rfl, hends⟩
      | false =>
          simp only [Bool.false_eq_true, if_false]
          rcases ih with hall | ⟨b, hlast, hb⟩
          · exact Or.inl (by rw [hall])
          · exact Or.inr ⟨b, by rw [List.getLast?_cons, hlast, Option.getD_some], hb⟩

theorem not_ends_of_mem_dropLast {actions : List IssuedAction} {a : IssuedAction}
    (h : a ∈ (applied actions).dropLast) : a.action.ends = false := by
  induction actions with
  | nil => cases h
  | cons b rest ih =>
      rw [applied] at h
      cases hends : b.action.ends with
      | true =>
          rw [hends] at h
          cases h
      | false =>
          simp only [hends, Bool.false_eq_true, if_false] at h
          cases hrest : applied rest with
          | nil =>
              rw [hrest] at h
              cases h
          | cons c later =>
              rw [hrest, List.dropLast_cons_cons] at h
              rcases List.mem_cons.mp h with rfl | h
              · exact hends
              · apply ih
                rwa [hrest]

/-! ## One action -/

section Action
variable {a : IssuedAction}

theorem applyAction_of_panic (flow : FlowRef) (index : Nat) (b : Boot) {reason : String}
    (h : a.action = .panic reason) :
    ∃ b', applyAction flow index a b = .error (.panic reason) b' ∧
      b'.state = after (Action.apply a) { b.state with action := index } := by
  have happly : Action.apply a { b.state with action := index } =
      .error (.panic reason) { b.state with action := index } := by
    rw [Action.apply, h]
    rfl
  obtain ⟨b', hstate, -, -, heq⟩ := applyAction_of_error flow happly
  refine ⟨b', by rw [heq]; rfl, ?_⟩
  rw [hstate, after_of_error happly]

theorem applyAction_of_calm (flow : FlowRef) (index : Nat) (b : Boot) (h : a.action.panics = false) :
    ∃ issues b', applyAction flow index a b = .ok issues b' ∧
      b'.state = after (Action.apply a) { b.state with action := index } := by
  cases happly : Action.apply a { b.state with action := index } with
  | ok _ s => exact ⟨[], _, applyAction_of_ok happly, by rw [after_of_ok happly]⟩
  | error f s =>
      obtain ⟨b', hstate, -, -, heq⟩ := applyAction_of_error flow happly
      rw [Action.isPanic_of_error happly, h] at heq
      refine ⟨_, b', heq, ?_⟩
      rw [hstate, after_of_error happly]

/-- During a step, the boot is before the first step of a flow only after a switch. -/
theorem step_after_apply (a : IssuedAction) (index : Nat) {s : State} (hstep : 0 ≤ s.step) :
    (after (Action.apply a) { s with action := index }).step = -1 ↔ a.action.switches = true := by
  have hplace := congrArg Coordinates.step (Action.coordinates_after_apply a { s with action := index })
  have hsame : (after (Action.apply a) { s with action := index }).step =
      (Action.placeAfter ⟨s.flow, s.step, index⟩ a.action).step := hplace
  rw [hsame]
  cases a.action with
  | setFlow f => exact iff_of_true rfl rfl
  | _ => simp only [Action.placeAfter, Action.switches, Bool.false_eq_true, iff_false]; omega

theorem place_after_apply (index : Nat) (s : State) (h : a.action.switches = false) :
    (after (Action.apply a) { s with action := index }).flow = s.flow ∧
      (after (Action.apply a) { s with action := index }).step = s.step := by
  have hplace := Action.coordinates_after_apply a { s with action := index }
  have hstays : Action.placeAfter ⟨s.flow, s.step, index⟩ a.action = ⟨s.flow, s.step, index⟩ := by
    cases haction : a.action with
    | setFlow f =>
        rw [haction] at h
        cases h
    | _ => rfl
  have hsame := hplace.trans hstays
  exact ⟨congrArg Coordinates.flow hsame, congrArg Coordinates.step hsame⟩

end Action

/-! ## All actions of a step -/

/-- How the application of actions ends: all is done, or the last action has panicked. -/
def EndsAs (index : Nat) (actions : List IssuedAction) (s : State) :
    EStateM.Result Fault Boot (List StepIssue) → Prop
  | .ok _ b => b.state = stateAfter index actions s ∧ ∀ a ∈ actions, a.action.panics = false
  | .error f b => b.state = stateAfter index actions s ∧
      ∃ a reason, actions.getLast? = some a ∧ a.action = .panic reason ∧ f = .panic reason

theorem EndsAs.cons {index : Nat} {a : IssuedAction} {actions : List IssuedAction} {s : State}
    {flow : FlowRef} {rest : List IssuedAction} {b : Boot} {issues : List StepIssue}
    (h : EndsAs (index + 1) actions (after (Action.apply a) { s with action := index })
      (applyActions flow (index + 1) rest b)) (hcalm : a.action.panics = false) :
    EndsAs index (a :: actions) s (((issues ++ ·) <$> applyActions flow (index + 1) rest) b) := by
  rw [map_eq_pure_bind]
  cases hrest : applyActions flow (index + 1) rest b with
  | ok later c =>
      rw [hrest] at h
      rw [bind_of_ok hrest]
      refine ⟨h.1, fun x hx => ?_⟩
      rcases List.mem_cons.mp hx with rfl | hx
      · exact hcalm
      · exact h.2 x hx
  | error f c =>
      rw [hrest] at h
      rw [bind_of_error hrest]
      obtain ⟨hstate, x, reason, hlast, hx, hf⟩ := h
      exact ⟨hstate, x, reason, by rw [List.getLast?_cons, hlast, Option.getD_some], hx, hf⟩

/-- Actions are applied up to the one that ends the step. -/
theorem applyActions_spec (flow : FlowRef) (index : Nat) (actions : List IssuedAction) (b : Boot)
    (hstep : 0 ≤ b.state.step) :
    EndsAs index (applied actions) b.state (applyActions flow index actions b) := by
  induction actions generalizing index b with
  | nil => exact ⟨rfl, fun a ha => absurd ha List.not_mem_nil⟩
  | cons a rest ih =>
      rw [applied]
      cases hpanics : a.action.panics with
      | true =>
          obtain ⟨reason, hreason⟩ := Action.exists_reason_of_panics hpanics
          obtain ⟨b', hfailed, hstate⟩ := applyAction_of_panic flow index b hreason
          have hends : a.action.ends = true := by rw [Action.ends, hpanics, Bool.or_true]
          rw [applyActions_cons_of_error hfailed, hends]
          exact ⟨hstate, a, reason, rfl, hreason, rfl⟩
      | false =>
          obtain ⟨issues, b', hdone, hstate⟩ :=
            applyAction_of_calm flow index b hpanics
          have hleft := step_after_apply a index hstep
          rw [← hstate] at hleft
          rw [applyActions_cons_of_ok hdone]
          cases hends : a.action.ends with
          | true =>
              have hswitches : a.action.switches = true := by
                rwa [Action.ends, hpanics, Bool.or_false] at hends
              rw [if_pos (hleft.mpr hswitches)]
              refine ⟨hstate, fun x hx => ?_⟩
              rwa [List.mem_singleton.mp hx]
          | false =>
              have hstays : b'.state.step = b.state.step := by
                rw [hstate]
                exact (place_after_apply index b.state (switches_of_ends hends)).2
              have hmore : b'.state.step ≠ -1 := by omega
              rw [if_neg hmore]
              have hrest := ih (index + 1) b' (by omega)
              rw [hstate] at hrest
              exact hrest.cons hpanics

theorem state_after_applyActions {flow : FlowRef} {index : Nat} {actions : List IssuedAction} {b : Boot}
    (hstep : 0 ≤ b.state.step) :
    (after (applyActions flow index actions) b).state = stateAfter index (applied actions) b.state := by
  have hspec := applyActions_spec flow index actions b hstep
  cases hresult : applyActions flow index actions b with
  | ok issues b' =>
      rw [hresult] at hspec
      rw [after_of_ok hresult]
      exact hspec.1
  | error f b' =>
      rw [hresult] at hspec
      rw [after_of_error hresult]
      exact hspec.1

section Place
variable {flow : FlowRef} {step : Int} {index : Nat} {actions : List IssuedAction} {s : State}

/-- The command log grows by what the applied actions write. -/
theorem commandLog_stateAfter (hflow : s.flow = some flow) (hstep : s.step = step) :
    (stateAfter index (applied actions) s).commandLog =
      s.commandLog ++ written flow step index (applied actions) s := by
  induction actions generalizing index s with
  | nil => exact (List.append_nil _).symm
  | cons a rest ih =>
      have hfirst := Action.commandLog_after_apply a { s with action := index }
      have hlog : ({ s with action := (index : Int) } : State).commandLog = s.commandLog := rfl
      have hplace : Action.recordsOf { s with action := (index : Int) } a
          (Action.issues { s with action := (index : Int) } a.action) =
          (Action.issues { s with action := index } a.action).map fun c =>
            ⟨c, some ⟨some flow, step, index⟩, some a⟩ := by
        rw [Action.recordsOf, State.coordinates]
        simp only [hflow, hstep]
      rw [hlog, hplace] at hfirst
      rw [applied, stateAfter, written, ← List.append_assoc, ← hfirst]
      cases hends : a.action.ends with
      | true => exact (List.append_nil _).symm
      | false =>
          obtain ⟨hflow', hstep'⟩ := place_after_apply index s (switches_of_ends hends)
          exact ih (hflow'.trans hflow) (hstep'.trans hstep)

theorem step_stateAfter (index : Nat) (actions : List IssuedAction) (hstep : 0 ≤ s.step) :
    (stateAfter index (applied actions) s).step = s.step ∨
      (stateAfter index (applied actions) s).step = -1 := by
  induction actions generalizing index s with
  | nil => exact Or.inl rfl
  | cons a rest ih =>
      rw [applied, stateAfter]
      cases hends : a.action.ends with
      | true =>
          cases hswitches : a.action.switches with
          | true => exact Or.inr ((step_after_apply a index hstep).mpr hswitches)
          | false => exact Or.inl (place_after_apply index s hswitches).2
      | false =>
          have hsame := (place_after_apply index s (switches_of_ends hends)).2
          have hat : 0 ≤ (after (Action.apply a) { s with action := index }).step := by omega
          have hrest := ih (index + 1) hat
          rwa [hsame] at hrest

theorem place_of_lt_length {k : Nat} (hflow : s.flow = some flow) (hstep : s.step = step)
    (hk : k < (applied actions).length) :
    (stateAfter index ((applied actions).take k) s).flow = some flow ∧
      (stateAfter index ((applied actions).take k) s).step = step := by
  induction actions generalizing index s k with
  | nil => exact absurd hk (Nat.not_lt_zero k)
  | cons a rest ih =>
      rw [applied] at hk ⊢
      cases k with
      | zero => exact ⟨hflow, hstep⟩
      | succ k =>
          cases hends : a.action.ends with
          | true =>
              rw [hends] at hk
              exact absurd hk (by simp)
          | false =>
              simp only [hends, Bool.false_eq_true, if_false, List.length_cons] at hk
              obtain ⟨hflow', hstep'⟩ := place_after_apply index s (switches_of_ends hends)
              exact ih (hflow'.trans hflow) (hstep'.trans hstep) (by omega)

/-- A record that applied actions write stands at the step under the number of one of them, which has
caused it and may issue its command. -/
theorem exists_cause_of_mem_written {r : CommandRecord} (h : r ∈ written flow step index actions s) :
    ∃ k a, actions[k]? = some a ∧ r.place = some ⟨some flow, step, (index + k : Nat)⟩ ∧
      r.action = some a ∧ a.action.MayIssue r.command := by
  induction actions generalizing index s with
  | nil => cases h
  | cons a rest ih =>
      rw [written] at h
      rcases List.mem_append.mp h with h | h
      · obtain ⟨c, hc, rfl⟩ := List.mem_map.mp h
        exact ⟨0, a, rfl, rfl, rfl, Action.mayIssue_of_mem_issues hc⟩
      · obtain ⟨k, x, hk, hplace, hx, hissue⟩ := ih h
        refine ⟨k + 1, x, hk, ?_, hx, hissue⟩
        rw [hplace, Nat.add_right_comm, Nat.add_assoc]

end Place
end Boot
end MeasuredBoot
