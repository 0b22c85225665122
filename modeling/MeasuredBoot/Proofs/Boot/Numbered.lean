import Mathlib.Data.List.Nodup
import MeasuredBoot.Proofs.Boot.Evidenced
import MeasuredBoot.Proofs.Boot.Mirrored

/-!
# Numbers of actions

A run numbers the new actions of its steps in the order in which it issues them, whether they are applied or
left out. Steps without a script produce new actions only, so no two actions of a run of such steps have the
same identity, and neither have those of which its evidence tells.
-/
namespace MeasuredBoot

def ActionIdentity.issuedFrom (first count : Nat) : List ActionIdentity :=
  (List.range' first count).map .issued

theorem ActionIdentity.nodup_issuedFrom (first count : Nat) : (issuedFrom first count).Nodup := by
  refine List.Nodup.map (fun x y h => ?_) (List.nodup_range')
  cases h
  rfl

theorem ActionIdentity.issuedFrom_add (first count more : Nat) :
    issuedFrom first (count + more) = issuedFrom first count ++ issuedFrom (first + count) more := by
  rw [issuedFrom, issuedFrom, issuedFrom, ← List.map_append, List.range'_append_1]

namespace Step
variable {s : State}

theorem fst_of_mem_newly {actions : List Action} {x : Produced} (h : x ∈ newly actions) : x.1 = none := by
  obtain ⟨a, -, rfl⟩ := List.mem_map.mp h
  rfl

theorem fst_of_mem_actions {step : Step} (hstep : step.isMirrored = true) {produced : List Produced}
    (h : step.actions s = .ok produced) : ∀ x ∈ produced, x.1 = none := by
  have hnewly : ∀ actions : List Action, produced = newly actions → ∀ x ∈ produced, x.1 = none := by
    rintro actions rfl x hx
    exact fst_of_mem_newly hx
  induction step generalizing produced with
  | setActor a => exact hnewly _ (Except.ok.inj h).symm
  | setFlow f => exact hnewly _ (Except.ok.inj h).symm
  | panic reason => exact hnewly _ (Except.ok.inj h).symm
  | whenHolds c inner ih =>
      rw [actions] at h
      split at h
      · exact ih hstep h hnewly
      · exact hnewly [] (Except.ok.inj h).symm
  | choose c inner other ih ihother =>
      obtain ⟨hinner, hother⟩ := Bool.and_eq_true_iff.mp hstep
      rw [actions] at h
      split at h
      · exact ih hinner h hnewly
      · exact ihother hother h hnewly
  | initTpm locality logged =>
      cases logged with
      | false => exact hnewly _ (Except.ok.inj h).symm
      | true =>
          obtain ⟨events, -, h⟩ := bind_eq_ok_iff.mp h
          exact hnewly _ (Except.ok.inj h).symm
  | initTpmLazily locality =>
      rw [actions] at h
      split at h
      · exact hnewly [] (Except.ok.inj h).symm
      · exact hnewly _ (Except.ok.inj h).symm
  | measure pcr type source description => exact hnewly _ (Except.ok.inj h).symm
  | verify subject fallback =>
      rw [actions] at h
      split at h
      · exact hnewly _ (Except.ok.inj h).symm
      · exact hnewly _ (Except.ok.inj h).symm
  | measurePcr0Data =>
      cases hactions : pcr0DataActions s with
      | error f =>
          rw [actions, hactions] at h
          cases h
      | ok inner =>
          rw [actions, hactions] at h
          exact hnewly _ (Except.ok.inj h).symm
  | psp m =>
      cases hactions : pspActions s m with
      | error f =>
          rw [actions, hactions] at h
          cases h
      | ok inner =>
          rw [actions, hactions] at h
          exact hnewly _ (Except.ok.inj h).symm
  | broken message => cases hstep
  | script items => cases hstep

end Step

namespace Boot

theorem map_identity_identify {produced : List Step.Produced} (h : ∀ x ∈ produced, x.1 = none) (n : Nat) :
    (identify n produced).map IssuedAction.identity = ActionIdentity.issuedFrom n produced.length := by
  induction produced generalizing n with
  | nil => rfl
  | cons x rest ih =>
      obtain ⟨number, a⟩ := x
      obtain rfl : number = none := h _ List.mem_cons_self
      have hrest := ih (fun y hy => h y (List.mem_cons_of_mem _ hy)) (n + 1)
      rw [identify, List.map_cons, hrest]
      rfl

/-! ## How many actions were issued -/

theorem stays_applyAction_issued (n : Nat) (flow : FlowRef) (index : Nat) (a : IssuedAction) :
    Stays (fun b : Boot => b.issued = n) (applyAction flow index a) := by
  refine Stays.bind (.modify fun _ hb => hb) fun _ => .get_bind fun b hb => ?_
  split
  · exact fun _ _ => hb
  · refine Stays.bind (fun _ _ => hb) fun _ => ?_
    split
    · exact Stays.bind (.modify fun _ hb => hb) fun _ => .throw _
    · exact Stays.bind (.modify fun _ hb => hb) fun _ => .pure _

theorem stays_applyActions_issued (n : Nat) (flow : FlowRef) (index : Nat) (actions : List IssuedAction) :
    Stays (fun b : Boot => b.issued = n) (applyActions flow index actions) := by
  induction actions generalizing index with
  | nil => exact .pure _
  | cons a rest ih =>
      refine (stays_applyAction_issued n flow index a).bind fun issues => .get_bind fun b _ => ?_
      split
      · exact .pure _
      · exact (ih (index + 1)).bind fun _ => .pure _

section Run
variable {flows : FlowCatalog} {b last : Boot} {e : Execution} {es : List Execution} {o : Option Fault}

theorem Execution.length_produced (e : Execution) :
    e.produced.length = (produce e.step e.start.state).1.length := by
  have hactions := congrArg List.length (map_action_identify e.start.issued (produce e.step e.start.state).1)
  rwa [List.length_map, List.length_map] at hactions

theorem Execution.map_identity_produced (e : Execution) (hstep : e.step.isMirrored = true) :
    e.produced.map IssuedAction.identity = ActionIdentity.issuedFrom e.start.issued e.produced.length := by
  have hnew : ∀ x ∈ (produce e.step e.start.state).1, x.1 = none := by
    unfold produce
    split
    · rename_i actions hactions
      exact Step.fst_of_mem_actions hstep hactions
    · exact fun x hx => absurd hx List.not_mem_nil
  rw [e.length_produced]
  exact map_identity_identify hnew e.start.issued

/-- A step has issued the actions which it has produced. -/
theorem Execution.Begins.issued_eq (h : e.Begins flows b) (hnext : nextStep flows b = .ok true e.finish) :
    e.finish.issued = b.issued + e.produced.length := by
  obtain ⟨issues, b', hactions, hfinish⟩ := h.of_ok hnext
  have hstays := stays_applyActions_issued _ e.flow 0 e.produced (begun e.flow e.step e.start) rfl
  rw [after_of_ok hactions] at hstays
  have hissued : e.finish.issued = b'.issued := by rw [hfinish]
  rw [hissued, hstays, e.length_produced, begun, h.start_eq]
  rfl

/-- The actions that the steps of a run without scripts have produced are numbered one after another. -/
theorem identities_of_executes (h : Executes flows b es o last)
    (hsteps : ∀ e ∈ es, e.step.isMirrored = true) :
    (es.flatMap Execution.produced).map IssuedAction.identity =
      ActionIdentity.issuedFrom b.issued (es.flatMap Execution.produced).length := by
  induction h with
  | ended => rfl
  | spent => rfl
  | @broke b e f hbegins hnext hleft =>
      rw [List.flatMap_singleton, e.map_identity_produced (hsteps e (by simp)), hbegins.start_eq]
      rfl
  | @step b last e es o hbegins hnext _ ih =>
      have hissued : e.start.issued = b.issued := by
        rw [hbegins.start_eq]
        rfl
      rw [List.flatMap_cons, List.map_append, e.map_identity_produced (hsteps e (by simp)),
        ih fun x hx => hsteps x (by simp [hx]), hbegins.issued_eq hnext, hissued, List.length_append,
        ActionIdentity.issuedFrom_add]

theorem applied_sublist_produced (es : List Execution) :
    (es.flatMap Execution.applied).Sublist (es.flatMap Execution.produced) := by
  induction es with
  | nil => exact .slnil
  | cons e rest ih =>
      rw [List.flatMap_cons, List.flatMap_cons]
      exact (isPrefix_applied e.produced).sublist.append ih

/-- No two applied actions of a run without scripts have the same identity. -/
theorem nodup_applied (h : Executes flows b es o last) (hsteps : ∀ e ∈ es, e.step.isMirrored = true) :
    ((es.flatMap Execution.applied).map IssuedAction.identity).Nodup := by
  have hnodup := ActionIdentity.nodup_issuedFrom b.issued (es.flatMap Execution.produced).length
  rw [← identities_of_executes h hsteps] at hnodup
  exact hnodup.sublist ((applied_sublist_produced es).map IssuedAction.identity)

end Run

/-! ## Evidence -/

theorem exists_actions_of_backed {algorithms : List Algorithm} {xs : List Application}
    (h : ∀ x ∈ xs, ∃ t, x.Backed algorithms t) :
    ∃ as : List IssuedAction, as.Sublist (xs.map Application.cause) ∧
      (xs.flatMap Application.added).map Evidence.action = as.map some ∧
      ∀ m ∈ xs.flatMap Application.added, m.chain = some .tpm := by
  induction xs with
  | nil => exact ⟨[], .slnil, rfl, fun m hm => absurd hm List.not_mem_nil⟩
  | cons x rest ih =>
      obtain ⟨as, hsub, hactions, hchain⟩ := ih fun y hy => h y (by simp [hy])
      obtain ⟨t, hcount, hshows⟩ := h x (by simp)
      rw [List.flatMap_cons, List.map_cons]
      cases hadded : x.added with
      | nil => exact ⟨as, hsub.cons _, hactions, hchain⟩
      | cons m more =>
          have hone : more = [] := by
            rw [hadded, List.length_cons] at hcount
            split at hcount
            · exact List.length_eq_zero_iff.mp (by omega)
            · omega
          have hm := hshows m (by simp [hadded])
          refine ⟨x.cause :: as, hsub.cons_cons _, ?_, fun n hn => ?_⟩
          · rw [hone, List.map_append, hactions, List.map_cons, hm.action]
            rfl
          · rcases List.mem_append.mp hn with hn | hn
            · rw [hone, List.mem_singleton] at hn
              rw [hn]
              exact hm.chain
            · exact hchain n hn

end Boot
end MeasuredBoot
