import MeasuredBoot.Proofs.Boot.Raised

/-!
# Runs under another budget

The budget of a run does nothing but cut it off. Two runs from the same state under different budgets
execute the same steps until the smaller budget is spent. So a run that ends by itself, or with a panic,
ends in the same way under every budget that its steps fit into, and under any other it is cut off once the
log has as many records as the budget allows. The end of a flow is found before the budget is looked at, so a
run without a step ends by itself even if its budget is negative.
-/
namespace MeasuredBoot.Boot

/-- A run and the same run with another budget; the journals may differ. -/
structure Recast (M : Int) (b b' : Boot) : Prop where
  state : b'.state = b.state
  maxSteps : b'.maxSteps = M
  issued : b'.issued = b.issued
  log : b'.log = b.log

section Recast
variable {flows : FlowCatalog} {flow : FlowRef} {step : Step} {b b' v : Boot} {M : Int}

theorem relates_recast : Relates Eq (Recast M) where
  state hb := hb.state.symm
  withState hb hs := ⟨hs.symm, hb.maxSteps, hb.issued, hb.log⟩
  withJournal _ _ hb := ⟨hb.state, hb.maxSteps, hb.issued, hb.log⟩
  withAction k hs := congrArg (fun s : State => { s with action := k }) hs
  step_eq hs := congrArg State.step hs.symm

theorem Recast.moved (hb : Recast M b b') : Recast M (moved b) (moved b') :=
  ⟨congrArg (fun s : State => { s with step := s.step + 1 }) hb.state, hb.maxSteps, hb.issued, hb.log⟩

theorem Recast.issuedBy_eq (hb : Recast M b b') (step : Step) : issuedBy step b' = issuedBy step b := by
  rw [issuedBy, issuedBy, hb.issued, hb.state]

theorem Recast.begun (hb : Recast M b b') (flow : FlowRef) (step : Step) :
    Recast M (begun flow step b) (begun flow step b') where
  state := hb.state
  maxSteps := hb.maxSteps
  issued := by
    rw [Boot.begun, Boot.begun, hb.issued, hb.state]
  log := hb.log

/-! ## Steps under another budget -/

/-- A step does not depend on the budget. -/
theorem lockstep_executeStep_recast (flow : FlowRef) (step : Step) :
    Lockstep (Recast M) (executeStep flow step) (executeStep flow step) := by
  intro b b' hb
  have hactions : Lockstep (Recast M) (applyActions flow 0 (issuedBy step b))
      (applyActions flow 0 (issuedBy step b')) := by
    rw [hb.issuedBy_eq]
    exact relates_recast.lockstep_applyActions flow 0 (List.forall₂_same.mpr fun a _ => .self _)
  have hends := hactions _ _ (hb.begun flow step)
  cases hdone : applyActions flow 0 (issuedBy step b) (Boot.begun flow step b) with
  | ok issues c =>
      obtain ⟨c', hother, hc⟩ := hends.of_ok hdone
      rw [executeStep_of_ok hdone, executeStep_of_ok hother]
      refine ⟨rfl, hc.state, hc.maxSteps, hc.issued, ?_⟩
      simp only [recordOf, hc.log, hc.state, hb.state, hb.issuedBy_eq]
  | error f c =>
      obtain ⟨c', hother, hc⟩ := hends.of_error hdone
      rw [executeStep_of_error hdone, executeStep_of_error hother]
      exact ⟨rfl, hc⟩

theorem endAlike_nextStep (hb : Recast M b b') (h : b.log.size < b.maxSteps) (hM : b.log.size < M) :
    EndAlike (Recast M) (nextStep flows b) (nextStep flows b') := by
  cases hflow : b.state.flow with
  | none =>
      have hflow' : b'.state.flow = none := by rw [hb.state, hflow]
      rw [nextStep_of_no_flow hflow, nextStep_of_no_flow hflow']
      exact ⟨rfl, hb⟩
  | some flow =>
      have hflow' : b'.state.flow = some flow := by rw [hb.state, hflow]
      rw [nextStep_eq hflow, nextStep_eq hflow', hb.moved.state, hb.maxSteps, hb.log]
      cases (flows.steps flow)[(Boot.moved b).state.step.toNat]? with
      | none => exact ⟨rfl, hb.moved⟩
      | some step =>
          simp only [if_neg (Int.not_le.mpr h), if_neg (Int.not_le.mpr hM), map_eq_pure_bind]
          exact (lockstep_executeStep_recast flow step).bind (fun _ => .pure true) _ _ hb.moved

theorem nextStep_ended (hb : Recast M b b') (h : nextStep flows b = .ok false v) :
    ∃ v', nextStep flows b' = .ok false v' ∧ Recast M v v' := by
  have hspec := nextStep_spec flows b
  rw [h] at hspec
  cases hspec with
  | idle hflow => exact ⟨b', nextStep_of_no_flow (by rw [hb.state, hflow]), hb⟩
  | @ended flow hflow hend =>
      have hflow' : b'.state.flow = some flow := by rw [hb.state, hflow]
      refine ⟨_, ?_, hb.moved⟩
      rw [nextStep_eq hflow', hb.moved.state, hend]

theorem lt_maxSteps_of_done (h : nextStep flows b = .ok true v) : b.log.size < b.maxSteps := by
  have hspec := nextStep_spec flows b
  rw [h] at hspec
  cases hspec with
  | done _ _ hleft _ => exact hleft

/-- Where a step is left, a spent budget ends the run. -/
theorem nextStep_spent {e : Execution} (hb : Recast M b b') (h : e.Begins flows b)
    (hM : M ≤ b.log.size) :
    nextStep flows b' = .error (.budget M e.flow.name) (Boot.moved b') := by
  have hflow : b'.state.flow = some e.flow := by rw [hb.state, h.current]
  have hfound := h.found
  rw [Execution.index, h.start_eq, ← hb.moved.state] at hfound
  rw [nextStep_eq hflow, hfound, hb.maxSteps, hb.log]
  exact if_pos hM

end Recast

/-! ## Runs under another budget -/

section Runs
variable {flows : FlowCatalog} {b b' last : Boot} {e : Execution} {es : List Execution}
  {o : Option Fault} {M : Int}

/-- The step that a run executes next is next under another budget too. -/
theorem Execution.Begins.recast (h : e.Begins flows b) (hb : Recast M b b') (v : Boot) :
    Execution.Begins flows b' ⟨e.flow, e.step, moved b', v⟩ where
  current := by rw [hb.state, h.current]
  found := by
    have hfound := h.found
    rwa [Execution.index, h.start_eq, ← hb.moved.state] at hfound
  start_eq := rfl

theorem Execution.Begins.unique {e' : Execution} (h : e.Begins flows b) (h' : e'.Begins flows b)
    (hfinish : e'.finish = e.finish) : e' = e := by
  obtain ⟨flow, step, start, finish⟩ := e
  obtain ⟨flow', step', start', finish'⟩ := e'
  obtain rfl : start = moved b := h.start_eq
  obtain rfl : start' = moved b := h'.start_eq
  obtain rfl : flow' = flow := Option.some.inj (h'.current.symm.trans h.current)
  obtain rfl : step' = step := Option.some.inj (h'.found.symm.trans h.found)
  obtain rfl : finish' = finish := hfinish
  rfl

theorem Execution.Begins.size_eq (h : e.Begins flows b) (hnext : nextStep flows b = .ok true e.finish) :
    e.finish.log.size = b.log.size + 1 := by
  obtain ⟨issues, b', -, -, hlog⟩ := h.exists_record hnext
  rw [hlog, Array.size_push]

/-- A run has only one course. -/
theorem Executes.unique {es' : List Execution} {o' : Option Fault} {last' : Boot}
    (h : Executes flows b es o last) (h' : Executes flows b es' o' last') :
    es' = es ∧ o' = o ∧ last' = last := by
  induction h generalizing es' o' last' with
  | ended hnext =>
      cases h' with
      | ended hnext' =>
          cases hnext.symm.trans hnext'
          exact ⟨rfl, rfl, rfl⟩
      | spent _ hnext' => cases hnext.symm.trans hnext'
      | broke _ hnext' _ => cases hnext.symm.trans hnext'
      | step _ hnext' _ => cases hnext.symm.trans hnext'
  | spent hspent hnext =>
      cases h' with
      | ended hnext' => cases hnext.symm.trans hnext'
      | spent _ hnext' =>
          cases hnext.symm.trans hnext'
          exact ⟨rfl, rfl, rfl⟩
      | broke _ _ hleft' => omega
      | step _ hnext' _ => cases hnext.symm.trans hnext'
  | broke hbegins hnext hleft =>
      cases h' with
      | ended hnext' => cases hnext.symm.trans hnext'
      | spent hspent' _ => omega
      | broke hbegins' hnext' _ =>
          have hsame := hnext.symm.trans hnext'
          injection hsame with hfault hfinish
          obtain rfl := hbegins.unique hbegins' hfinish.symm
          exact ⟨rfl, congrArg some hfault.symm, rfl⟩
      | step _ hnext' _ => cases hnext.symm.trans hnext'
  | step hbegins hnext _ ih =>
      cases h' with
      | ended hnext' => cases hnext.symm.trans hnext'
      | spent _ hnext' => cases hnext.symm.trans hnext'
      | broke _ hnext' _ => cases hnext.symm.trans hnext'
      | step hbegins' hnext' hrest' =>
          have hsame := hnext.symm.trans hnext'
          injection hsame with _ hfinish
          obtain rfl := hbegins.unique hbegins' hfinish.symm
          obtain ⟨rfl, rfl, rfl⟩ := ih hrest'
          exact ⟨rfl, rfl, rfl⟩

theorem complete_of_executes (h : Executes flows b es o last) : (complete flows b).1 = o ∧
    (complete flows b).2.state = last.state ∧ (complete flows b).2.log = last.log := by
  obtain ⟨es', last', hexecutes, hstate, hlog⟩ := exists_executes flows b
  obtain ⟨-, ho, rfl⟩ := h.unique hexecutes
  exact ⟨ho, hstate, hlog⟩

theorem Executes.length_le (h : Executes flows b es o last) :
    (b.log.size + es.length : Int) ≤ max (b.log.size : Int) b.maxSteps := by
  induction h with
  | ended _ => exact Int.le_max_left _ _
  | spent _ _ => exact Int.le_max_left _ _
  | @broke b e f _ _ hleft =>
      rw [List.length_singleton]
      omega
  | @step b last e es o hbegins hnext _ ih =>
      have hleft := lt_maxSteps_of_done hnext
      rw [hbegins.size_eq hnext, hbegins.maxSteps_eq hnext] at ih
      rw [List.length_cons]
      omega

/-- A run with a budget, whose log is not beyond the budget unless it was from the beginning. -/
structure Within (n : Nat) (M : Int) (b : Boot) : Prop where
  maxSteps : b.maxSteps = M
  size : (b.log.size : Int) ≤ max (n : Int) M

/-- The log of a run does not outgrow the budget. -/
theorem nextStep_within (n : Nat) : Stays (Within n M) (nextStep flows) := by
  intro b hb
  have hnext := nextStep_spec flows b
  unfold after
  generalize nextStep flows b = r at hnext
  cases hnext with
  | idle _ => exact hb
  | ended _ _ => exact ⟨hb.maxSteps, hb.size⟩
  | spent _ _ _ => exact ⟨hb.maxSteps, hb.size⟩
  | broke _ _ _ hactions =>
      obtain ⟨hlog, hmax⟩ := frame_applyActions_error hactions
      refine ⟨hmax.trans hb.maxSteps, ?_⟩
      rw [hlog]
      exact hb.size
  | @done flow step issues b' _ _ hleft hactions =>
      obtain ⟨hlog, hmax⟩ := frame_applyActions hactions
      have hsize : b'.log.size = b.log.size := congrArg Array.size hlog
      refine ⟨hmax.trans hb.maxSteps, ?_⟩
      rw [Array.size_push, hsize, ← hb.maxSteps]
      omega

/-- A run that its budget has not ended runs alike under every budget that its steps fit into. -/
theorem executes_recast (h : Executes flows b es o last) (hb : Recast M b b')
    (ho : ∀ limit name, o ≠ some (.budget limit name))
    (hM : es = [] ∨ (b.log.size + es.length : Int) ≤ M) :
    ∃ es' last', Executes flows b' es' o last' ∧ Recast M last last' := by
  induction h generalizing b' with
  | ended hnext =>
      obtain ⟨v', hother, hv⟩ := nextStep_ended hb hnext
      exact ⟨[], v', .ended hother, hv⟩
  | spent hspent hnext =>
      obtain ⟨name, rfl⟩ := exists_budget_of_spent hspent hnext
      exact absurd rfl (ho _ name)
  | @broke b e f hbegins hnext hleft =>
      have hfits : b.log.size < M := by
        simp only [List.cons_ne_nil, false_or, List.length_singleton] at hM
        omega
      obtain ⟨v', hother, hv⟩ := (endAlike_nextStep hb hleft hfits).of_error hnext
      have hleft' : b'.log.size < b'.maxSteps := by rwa [hb.log, hb.maxSteps]
      exact ⟨_, v', .broke (hbegins.recast hb v') hother hleft', hv⟩
  | @step b last e es o hbegins hnext _ ih =>
      simp only [List.cons_ne_nil, false_or, List.length_cons] at hM
      obtain ⟨v', hother, hv⟩ :=
        (endAlike_nextStep hb (lt_maxSteps_of_done hnext) (by omega)).of_ok hnext
      obtain ⟨es', last', hexecutes, hlast⟩ := ih hv ho (.inr (by rw [hbegins.size_eq hnext]; omega))
      exact ⟨_, last', .step (hbegins.recast hb v') hother hexecutes, hlast⟩

theorem cut_of_begins (hbegins : e.Begins flows b) (hb : Recast M b b') (hspent : M ≤ b.log.size)
    (hfirst : b.log.toList <+: last.log.toList) :
    ∃ es' name last', Executes flows b' es' (some (.budget M name)) last' ∧
      last'.log.toList <+: last.log.toList ∧ (last'.log.size : Int) = max (b.log.size : Int) M := by
  have hspent' : b'.maxSteps ≤ b'.log.size := by rwa [hb.maxSteps, hb.log]
  rw [Int.max_eq_left hspent, ← hb.log]
  exact ⟨[], _, _, .spent hspent' (nextStep_spent hb hbegins hspent), hb.log ▸ hfirst, rfl⟩

/-- A run is cut off by a budget that is too small for its steps. -/
theorem cut_of_executes (h : Executes flows b es o last) (hb : Recast M b b') (hsome : es ≠ [])
    (hM : M < b.log.size + es.length) :
    ∃ es' name last', Executes flows b' es' (some (.budget M name)) last' ∧
      last'.log.toList <+: last.log.toList ∧ (last'.log.size : Int) = max (b.log.size : Int) M := by
  induction h generalizing b' with
  | ended _ => exact absurd rfl hsome
  | spent _ _ => exact absurd rfl hsome
  | @broke b e f hbegins hnext hleft =>
      have hspent : M ≤ b.log.size := by
        rw [List.length_singleton] at hM
        omega
      exact cut_of_begins hbegins hb hspent (Executes.broke hbegins hnext hleft).isPrefix_log
  | @step b last e es o hbegins hnext hrest ih =>
      by_cases hspent : M ≤ b.log.size
      · exact cut_of_begins hbegins hb hspent (Executes.step hbegins hnext hrest).isPrefix_log
      · have hsize := hbegins.size_eq hnext
        rw [List.length_cons] at hM
        have hmore : es ≠ [] := by
          rintro rfl
          rw [List.length_nil] at hM
          omega
        obtain ⟨v', hother, hv⟩ :=
          (endAlike_nextStep hb (lt_maxSteps_of_done hnext) (Int.not_le.mp hspent)).of_ok hnext
        obtain ⟨es', name, last', hexecutes, hfirst, hlast⟩ := ih hv hmore (by rw [hsize]; omega)
        refine ⟨_, name, last', .step (hbegins.recast hb v') hother hexecutes, hfirst, ?_⟩
        rw [hlast, hsize]
        omega

end Runs

/-! ## A flow under all budgets -/

/-- How the run of a flow on a state ends under a budget. -/
def completed (flows : FlowCatalog) (s : State) (flow : FlowRef) (M : Int) : Option Fault × Boot :=
  complete flows (ofFlow s flow M)

structure SameEnd (x y : Option Fault × Boot) : Prop where
  outcome : y.1 = x.1
  state : y.2.state = x.2.state
  log : y.2.log = x.2.log

/-- A run and the same run cut off by a budget, when it has as many records as that allows. -/
structure CutOff (M : Int) (x y : Option Fault × Boot) : Prop where
  outcome : ∃ name, y.1 = some (.budget M name)
  log : y.2.log.toList = x.2.log.toList.take M.toNat

section Flow
variable {flows : FlowCatalog} {s : State} {flow : FlowRef} {M N : Int} {es : List Execution}
  {o : Option Fault} {last : Boot}

theorem recast_ofFlow : Recast N (ofFlow s flow M) (ofFlow s flow N) := ⟨rfl, rfl, rfl, rfl⟩

theorem sameEnd_of_executes (h : Executes flows (ofFlow s flow M) es o last)
    (ho : ∀ limit name, o ≠ some (.budget limit name)) (hN : es = [] ∨ (es.length : Int) ≤ N) :
    SameEnd (completed flows s flow M) (completed flows s flow N) := by
  have hfits : es = [] ∨ ((ofFlow s flow M).log.size + es.length : Int) ≤ N := by
    rwa [show ((ofFlow s flow M).log.size : Int) = 0 from rfl, Int.zero_add]
  obtain ⟨houtcome, hstate, hlog⟩ := complete_of_executes h
  obtain ⟨es', last', hexecutes, hlast⟩ := executes_recast h recast_ofFlow ho hfits
  obtain ⟨houtcome', hstate', hlog'⟩ := complete_of_executes hexecutes
  exact ⟨houtcome'.trans houtcome.symm, hstate'.trans (hlast.state.trans hstate.symm),
    hlog'.trans (hlast.log.trans hlog.symm)⟩

/-- A run that ends by itself ends in the same way under every larger budget. -/
theorem sameEnd_of_le (h : (completed flows s flow M).1 = none) (hle : M ≤ N) :
    SameEnd (completed flows s flow M) (completed flows s flow N) := by
  obtain ⟨es, last, hexecutes, -, -⟩ := exists_executes flows (ofFlow s flow M)
  have hnone : (complete flows (ofFlow s flow M)).1 = none := h
  rw [hnone] at hexecutes
  refine sameEnd_of_executes hexecutes (fun _ _ hf => nomatch hf) ?_
  rw [← List.length_eq_zero_iff]
  have hbound := hexecutes.length_le
  rw [show (ofFlow s flow M).log.size = 0 from rfl, show (ofFlow s flow M).maxSteps = M from rfl] at hbound
  omega

theorem cutOff_of_executes (h : Executes flows (ofFlow s flow M) es o last) (hsome : es ≠ [])
    (hN : N < es.length) : CutOff N (completed flows s flow M) (completed flows s flow N) := by
  have hcut : N < (ofFlow s flow M).log.size + es.length := by
    rwa [show ((ofFlow s flow M).log.size : Int) = 0 from rfl, Int.zero_add]
  obtain ⟨es', name, last', hexecutes, hfirst, hsize⟩ := cut_of_executes h recast_ofFlow hsome hcut
  have hlength : last'.log.toList.length = N.toNat := by
    rw [show ((ofFlow s flow M).log.size : Int) = 0 from rfl] at hsize
    rw [Array.length_toList]
    omega
  obtain ⟨houtcome, -, hlog⟩ := complete_of_executes hexecutes
  refine ⟨⟨name, houtcome⟩, ?_⟩
  have htake := List.prefix_iff_eq_take.mp hfirst
  rw [hlength, ← (complete_of_executes h).2.2] at htake
  exact (congrArg Array.toList hlog).trans htake

end Flow

/-- A run of a flow writes a record for each execution that was not broken off. -/
theorem exists_told (flows : FlowCatalog) (s : State) (flow : FlowRef) (M : Int) :
    ∃ done broken last,
      Executes flows (ofFlow s flow M) (done ++ broken) (completed flows s flow M).1 last ∧
      (completed flows s flow M).2.state = last.state ∧ (completed flows s flow M).2.log = last.log ∧
      EndsWith M (completed flows s flow M).1 broken ∧
      List.Forall₂ Execution.ToldBy done last.log.toList ∧ done.length = last.log.size := by
  obtain ⟨es, last, hexecutes, hstate, hlog⟩ := exists_executes flows (ofFlow s flow M)
  obtain ⟨done, broken, records, rfl, hends, hrecords, htold⟩ :=
    told_of_executes hexecutes (Int.le_refl _)
  have hall : last.log.toList = records := hrecords.trans (List.nil_append _)
  rw [← hall] at htold
  exact ⟨done, broken, last, hexecutes, hstate, hlog, hends, htold,
    htold.length_eq.trans Array.length_toList⟩

/-- A run of a flow under a budget executes finitely many steps and no more than the budget allows. It writes
a record for each, which holds all that has gone wrong in the step as issues, except for the step that
panics; only a panic or a spent budget end the run with a fault. Another budget changes the end of a run that
has executed a step only by cutting it off. -/
theorem complete_under_ceiling (flows : FlowCatalog) (s : State) (flow : FlowRef) (M : Int) :
    ∃ done broken last,
      Executes flows (ofFlow s flow M) (done ++ broken) (completed flows s flow M).1 last ∧
      (completed flows s flow M).2.state = last.state ∧ (completed flows s flow M).2.log = last.log ∧
      (done ++ broken).length ≤ M.toNat ∧ EndsWith M (completed flows s flow M).1 broken ∧
      List.Forall₂ Execution.ToldBy done last.log.toList ∧
      last.log.size ≤ M.toNat ∧ (∀ b, Reaches flows (ofFlow s flow M) b → b.log.size ≤ M.toNat) ∧
      ((completed flows s flow M).1 = none → ∀ N : Int,
        (last.log.size = 0 ∨ last.log.size ≤ N →
          SameEnd (completed flows s flow M) (completed flows s flow N)) ∧
        (0 < last.log.size → N < last.log.size →
          CutOff N (completed flows s flow M) (completed flows s flow N))) ∧
      ∀ reason, (completed flows s flow M).1 = some (.panic reason) → ∀ N : Int,
        (last.log.size < N → SameEnd (completed flows s flow M) (completed flows s flow N)) ∧
        (N ≤ last.log.size → CutOff N (completed flows s flow M) (completed flows s flow N)) := by
  obtain ⟨done, broken, last, hexecutes, hstate, hlog, hends, htold, hsize⟩ := exists_told flows s flow M
  have hlength : (done ++ broken).length ≤ M.toNat := by
    have hbound := hexecutes.length_le
    rw [show (ofFlow s flow M).log.size = 0 from rfl, show (ofFlow s flow M).maxSteps = M from rfl] at hbound
    omega
  have hfits : last.log.size ≤ M.toNat := by
    rw [List.length_append] at hlength
    omega
  refine ⟨done, broken, last, hexecutes, hstate, hlog, hlength, hends, htold, hfits, fun b hb => ?_,
    fun hnone N => ?_, fun reason hpanic N => ?_⟩
  · have hwithin : Within 0 M b :=
      hb.stays (nextStep_within 0) ⟨rfl, Int.le_max_left _ _⟩
    have hbound := hwithin.size
    omega
  · rw [hnone] at hends hexecutes
    cases hends
    rw [List.append_nil] at hexecutes
    refine ⟨fun hN => sameEnd_of_executes hexecutes (fun _ _ h => nomatch h) ?_, fun hsome hN => ?_⟩
    · rwa [← List.length_eq_zero_iff, hsize]
    · refine cutOff_of_executes hexecutes ?_ (by rwa [hsize])
      rwa [← List.length_pos_iff, hsize]
  · rw [hpanic] at hends hexecutes
    cases hends with
    | @broken e _ _ =>
        have hcount : (done ++ [e]).length = last.log.size + 1 := by
          rw [List.length_append, hsize, List.length_singleton]
        refine ⟨fun hN => sameEnd_of_executes hexecutes (fun _ _ h => nomatch h) (.inr ?_),
          fun hN => cutOff_of_executes hexecutes (by simp) ?_⟩
        · omega
        · omega

/-- A flow of two steps that run into trouble: there is no TPM to start and no image with code. -/
def troubledFlows : FlowCatalog := .ofList [⟨"Troubled", [.initTpm 0 false, .setActor .pei]⟩]

def troubled : FlowRef := ⟨.supplied, "Troubled"⟩

/-- The run of the flow goes through under a budget of two and is cut off under a budget of one. -/
theorem complete_under_ceiling_troubled : (completed troubledFlows {} troubled 2).1 = none ∧
    (completed troubledFlows {} troubled 2).2.log.size = 2 ∧
    SameEnd (completed troubledFlows {} troubled 2) (completed troubledFlows {} troubled 3) ∧
    CutOff 1 (completed troubledFlows {} troubled 2) (completed troubledFlows {} troubled 1) := by
  have hnone : (completed troubledFlows {} troubled 2).1 = none := rfl
  have hsize : (completed troubledFlows {} troubled 2).2.log.size = 2 := by decide
  obtain ⟨done, broken, last, -, -, hlog, -, -, -, -, -, hdone, -⟩ :=
    complete_under_ceiling troubledFlows {} troubled 2
  have hlast : last.log.size = 2 := hlog ▸ hsize
  exact ⟨hnone, hsize, (hdone hnone 3).1 (by omega), (hdone hnone 1).2 (by omega) (by omega)⟩

/-- A flow without steps, and one whose only step starts a TPM that is not there and then panics. -/
def cornerFlows : FlowCatalog := .ofList [⟨"Empty", []⟩,
  ⟨"Halting", [.script [⟨0, .tpmInit 0⟩, ⟨1, .panic "halt"⟩]]⟩]

/-- The run of the flow without steps is not cut off even by a negative budget, and the failed start is no
issue of any record. -/
theorem completed_corner :
    (completed cornerFlows {} ⟨.supplied, "Empty"⟩ 0).1 = none ∧
    (-1 : Int) < (completed cornerFlows {} ⟨.supplied, "Empty"⟩ 0).2.log.size ∧
    (completed cornerFlows {} ⟨.supplied, "Empty"⟩ (-1)).1 = none ∧
    ∃ e last f, Executes cornerFlows (ofFlow {} ⟨.supplied, "Halting"⟩ 5) [e] (some (.panic "halt")) last ∧
      last.log = #[] ∧ ∃ x ∈ e.applications, x.fault? = some f ∧ f.isPanic = false := by
  refine ⟨rfl, by decide, rfl, ?_⟩
  refine ⟨⟨⟨.supplied, "Halting"⟩, .script [⟨0, .tpmInit 0⟩, ⟨1, .panic "halt"⟩],
    moved (ofFlow {} ⟨.supplied, "Halting"⟩ 5),
    after (nextStep cornerFlows) (ofFlow {} ⟨.supplied, "Halting"⟩ 5)⟩, _, _,
    .broke ⟨rfl, rfl, rfl⟩ rfl (by decide), rfl, _, List.mem_cons_self, rfl, rfl⟩

end MeasuredBoot.Boot
