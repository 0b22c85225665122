import MeasuredBoot.Proofs.Boot.Applied

/-!
# What stands in a command log

Every record of a command log is written by an action at the place of the step that issued it, also where
the command is refused or the action fails. So a property of records that holds of what each action of
each step can write holds of the whole log, in every state that a run reaches.
-/
namespace MeasuredBoot

def State.LogAll (P : CommandRecord → Prop) (s : State) : Prop :=
  ∀ t, s.tpm = some t → ∀ r ∈ t.commands.toList, P r

theorem State.logAll_iff {P : CommandRecord → Prop} {s : State} :
    s.LogAll P ↔ ∀ r ∈ s.commandLog, P r := by
  unfold State.LogAll State.commandLog
  cases s.tpm with
  | none => simp
  | some t => simp

/-! ## Steps and runs -/

namespace Boot

/-- A property of records that holds of whatever the steps of flows can write. -/
def Writable (flows : FlowCatalog) (P : CommandRecord → Prop) : Prop :=
  ∀ (flow : FlowRef) (k : Nat) (step : Step), (flows.steps flow)[k]? = some step → ∀ s : State,
    ∀ x ∈ (produce step s).1, ∀ (identity : ActionIdentity) (i : Int) (c : Command), x.2.MayIssue c →
      P ⟨c, some ⟨some flow, k, i⟩, some ⟨identity, x.2⟩⟩

/-- A run whose log has a property throughout, and which is at a step or before the first one. -/
def Logged (P : CommandRecord → Prop) (b : Boot) : Prop := b.state.LogAll P ∧ -1 ≤ b.state.step

theorem issuedBy_writable {flows : FlowCatalog} {P : CommandRecord → Prop} (h : Writable flows P)
    {flow : FlowRef} {step : Step} {b : Boot} (hstep : 0 ≤ b.state.step)
    (hfound : (flows.steps flow)[b.state.step.toNat]? = some step) :
    ∀ a ∈ issuedBy step b, ∀ (i : Int) (c : Command), a.action.MayIssue c →
      P ⟨c, some ⟨some flow, b.state.step, i⟩, some a⟩ := by
  intro a ha i c hc
  obtain ⟨x, hx, heq⟩ := exists_of_mem_identify ha
  rw [← heq] at hc
  have hrecord := h flow _ step hfound _ x hx a.identity i c hc
  rwa [Int.toNat_of_nonneg hstep, heq] at hrecord

/-- What the next step of a flow issues in a run: nothing if there is no such step, or the budget is spent. -/
def nextIssued (flows : FlowCatalog) (flow : FlowRef) (b : Boot) : List IssuedAction :=
  match (flows.steps flow)[(moved b).state.step.toNat]? with
  | none => []
  | some step => if b.maxSteps ≤ b.log.size then [] else issuedBy step (moved b)

theorem exists_step_of_mem_nextIssued {flows : FlowCatalog} {flow : FlowRef} {b : Boot} {a : IssuedAction}
    (h : a ∈ nextIssued flows flow b) : ∃ step,
      (flows.steps flow)[(moved b).state.step.toNat]? = some step ∧ a ∈ issuedBy step (moved b) := by
  unfold nextIssued at h
  split at h
  · cases h
  · rename_i step hfound
    split at h
    · cases h
    · exact ⟨step, hfound, h⟩

/-- However the next step ends, it has applied what it issued. -/
theorem state_after_nextStep {flows : FlowCatalog} {flow : FlowRef} {b : Boot}
    (hflow : b.state.flow = some flow) (hstep : -1 ≤ b.state.step) :
    (after (nextStep flows) b).state = stateAfter 0 (applied (nextIssued flows flow b)) (moved b).state := by
  have hat : 0 ≤ (moved b).state.step := by
    simp only [moved]
    omega
  have happlied (x : Step) : (after (applyActions flow 0 (issuedBy x (moved b)))
      (begun flow x (moved b))).state = stateAfter 0 (applied (issuedBy x (moved b))) (moved b).state :=
    state_after_applyActions (b := begun flow x (moved b)) hat
  have hnext := nextStep_spec flows b
  rw [after, nextIssued]
  cases hresult : nextStep flows b with
  | ok more b' =>
      rw [hresult] at hnext
      cases hnext with
      | idle hnone => cases hnone.symm.trans hflow
      | @ended flow' hflow' hend =>
          obtain rfl : flow' = flow := Option.some.inj (hflow'.symm.trans hflow)
          rw [hend]
          rfl
      | @done flow' step issues v hflow' hfound hleft hactions =>
          obtain rfl : flow' = flow := Option.some.inj (hflow'.symm.trans hflow)
          have hstate := happlied step
          rw [after_of_ok hactions] at hstate
          simp only [hfound, if_neg (Int.not_le.mpr hleft)]
          exact hstate
  | error f b' =>
      rw [hresult] at hnext
      cases hnext with
      | @spent flow' step hflow' hfound hspent =>
          obtain rfl : flow' = flow := Option.some.inj (hflow'.symm.trans hflow)
          simp only [hfound, if_pos hspent]
          rfl
      | @broke flow' step _ _ hflow' hfound hleft hactions =>
          obtain rfl : flow' = flow := Option.some.inj (hflow'.symm.trans hflow)
          have hstate := happlied step
          rw [after_of_error hactions] at hstate
          simp only [hfound, if_neg (Int.not_le.mpr hleft)]
          exact hstate

theorem commandLog_nextStep {flows : FlowCatalog} {flow : FlowRef} {b : Boot}
    (hflow : b.state.flow = some flow) (hstep : -1 ≤ b.state.step) :
    (after (nextStep flows) b).state.commandLog = b.state.commandLog ++
      written flow (moved b).state.step 0 (applied (nextIssued flows flow b)) (moved b).state := by
  rw [state_after_nextStep hflow hstep]
  exact commandLog_stateAfter hflow rfl

theorem nextStep_logged {flows : FlowCatalog} {P : CommandRecord → Prop} (h : Writable flows P) :
    Stays (Logged P) (nextStep flows) := by
  rintro b ⟨hlog, hstep⟩
  cases hflow : b.state.flow with
  | none =>
      rw [after_of_ok (nextStep_of_no_flow hflow)]
      exact ⟨hlog, hstep⟩
  | some flow =>
      have hat : 0 ≤ (moved b).state.step := by
        simp only [moved]
        omega
      constructor
      · rw [State.logAll_iff, commandLog_nextStep hflow hstep]
        intro r hr
        rcases List.mem_append.mp hr with hr | hr
        · exact State.logAll_iff.mp hlog r hr
        · obtain ⟨k, a, hk, hplace, ha, hissue⟩ := exists_cause_of_mem_written hr
          have hmem := (isPrefix_applied _).subset (List.mem_of_getElem? hk)
          obtain ⟨step, hfound, hissued⟩ := exists_step_of_mem_nextIssued hmem
          have hrecord := issuedBy_writable h hat hfound a hissued ((0 + k : Nat) : Int) r.command hissue
          rw [← hplace, ← ha] at hrecord
          exact hrecord
      · have hbound := step_stateAfter 0 (nextIssued flows flow b) hat
        rw [state_after_nextStep hflow hstep]
        omega

theorem reaches_logged {flows : FlowCatalog} {P : CommandRecord → Prop} (h : Writable flows P)
    {b b' : Boot} (hreaches : Reaches flows b b') (hb : Logged P b) : Logged P b' :=
  hreaches.stays (nextStep_logged h) hb

end Boot
end MeasuredBoot
