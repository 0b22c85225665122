import MeasuredBoot.Proofs.Action.Performed
import MeasuredBoot.Proofs.Boot.Executed

/-!
# Runs without issues

A run that ends by itself and whose records hold no issue is a sequence of steps, each of which produced
its actions and performed all of them, up to one that switched the flow. It ends where the flow has no
further step; the budget of steps plays no part.
-/
namespace MeasuredBoot

def State.advanced (s : State) : State := { s with step := s.step + 1 }

namespace Boot

/-- Actions performed one after another until one of them switches the flow. -/
inductive Performs : Nat → List IssuedAction → State → State → Prop
  | done (index : Nat) (s : State) : Performs index [] s s
  | switch {index : Nat} {a : IssuedAction} {rest : List IssuedAction} {s u : State} :
      Action.apply a { s with action := index } = .ok () u → u.step = -1 →
      Performs index (a :: rest) s u
  | next {index : Nat} {a : IssuedAction} {rest : List IssuedAction} {s v u : State} :
      Action.apply a { s with action := index } = .ok () v → v.step ≠ -1 →
      Performs (index + 1) rest v u → Performs index (a :: rest) s u

/-- A step of a flow that produces its actions and performs them. -/
structure CleanStep (flows : FlowCatalog) (flow : FlowRef) (step : Step) (s u : State) : Prop where
  current : s.flow = some flow
  found : (flows.steps flow)[(s.step + 1).toNat]? = some step
  performs : ∃ produced n, step.actions s.advanced = Except.ok produced ∧
    Performs 0 (identify n produced) s.advanced u

def Halts (flows : FlowCatalog) (s : State) : Prop :=
  s.flow = none ∨ ∃ flow, s.flow = some flow ∧ (flows.steps flow)[(s.step + 1).toNat]? = none

theorem CleanStep.not_halts {flows : FlowCatalog} {flow : FlowRef} {step : Step} {s u : State}
    (h : CleanStep flows flow step s u) : ¬ Halts flows s := by
  rintro (hnone | ⟨f, hflow, hend⟩)
  · cases hnone.symm.trans h.current
  · obtain rfl := Option.some.inj (hflow.symm.trans h.current)
    cases hend.symm.trans h.found

/-- Steps without issues, until there is no further one. -/
inductive CleanRun (flows : FlowCatalog) : State → State → Prop
  | halt {s : State} : Halts flows s → CleanRun flows s s
  | step {flow : FlowRef} {step : Step} {s v u : State} : CleanStep flows flow step s v →
      CleanRun flows v u → CleanRun flows s u

/-! ## Actions -/

theorem exists_of_performs_cons {index : Nat} {a : IssuedAction} {rest : List IssuedAction}
    {s u : State} (h : Performs index (a :: rest) s u) :
    ∃ v, Action.apply a { s with action := index } = .ok () v ∧
      ((v.step = -1 ∧ u = v) ∨ (v.step ≠ -1 ∧ Performs (index + 1) rest v u)) := by
  cases h with
  | switch ha hswitched => exact ⟨u, ha, Or.inl ⟨hswitched, rfl⟩⟩
  | @next _ _ _ _ v _ ha hstayed hrest => exact ⟨v, ha, Or.inr ⟨hstayed, hrest⟩⟩

theorem ne_panic_of_performs {index : Nat} {actions : List IssuedAction} {s u : State}
    (h : Performs index actions s u) (reason : String) :
    actions.map IssuedAction.action ≠ [.panic reason] := by
  intro heq
  obtain ⟨x, rfl, hx⟩ := List.map_eq_singleton_iff.mp heq
  obtain ⟨identity, action⟩ := x
  obtain ⟨v, happlied, -⟩ := exists_of_performs_cons h
  cases hx
  cases happlied

theorem performs_of_applyActions {flow : FlowRef} {index : Nat} {actions : List IssuedAction}
    {b b' : Boot} (h : applyActions flow index actions b = .ok [] b') :
    Performs index actions b.state b'.state := by
  induction actions generalizing index b with
  | nil =>
      cases h
      exact .done index _
  | cons a rest ih =>
      obtain ⟨first, v, hfirst, hrest⟩ := exists_of_applyActions_cons h
      have hperformed : first = [] →
          Action.apply a { b.state with action := index } = .ok () v.state := by
        intro hnone
        obtain ⟨-, -, ⟨happly, -⟩ | ⟨f, -, hissue⟩⟩ := exists_of_applyAction_ok hfirst
        · exact happly
        · cases hissue.symm.trans hnone
      rcases hrest with ⟨hswitched, hnone, rfl⟩ | ⟨hstayed, later, hlater, hnone⟩
      · exact .switch (hperformed hnone.symm) hswitched
      · obtain ⟨hfirst, rfl⟩ := List.append_eq_nil_iff.mp hnone.symm
        exact .next (hperformed hfirst) hstayed (ih hlater)

/-! ## Steps -/

theorem actions_of_produce {step : Step} {s : State} (h : (produce step s).2 = []) :
    step.actions s = .ok (produce step s).1 := by
  cases hactions : step.actions s with
  | ok actions => simp only [produce, hactions]
  | error f =>
      simp only [produce, hactions] at h
      cases h

theorem halts_of_ended {flows : FlowCatalog} {b b' : Boot} (h : nextStep flows b = .ok false b') :
    Halts flows b.state := by
  have hnext := nextStep_spec flows b
  rw [h] at hnext
  cases hnext with
  | idle hflow => exact Or.inl hflow
  | @ended flow hflow hend => exact Or.inr ⟨flow, hflow, hend⟩

/-- An executed step that has produced its actions and performed them. -/
structure Execution.Clean (e : Execution) : Prop where
  actions : e.step.actions e.start.state = .ok (produce e.step e.start.state).1
  performs : Performs 0 e.produced e.start.state e.finish.state

section Begins
variable {flows : FlowCatalog} {b : Boot} {e : Execution}

theorem Execution.Begins.clean (h : e.Begins flows b) (hnext : nextStep flows b = .ok true e.finish)
    (hnone : ∀ r ∈ e.finish.log.toList, r.issues = []) : e.Clean := by
  obtain ⟨issues, b', hactions, hstate, hlog⟩ := h.exists_record hnext
  have hrecord := hnone (recordOf e.step e.start b' issues) (by rw [hlog, Array.toList_push]; simp)
  obtain ⟨hfirst, -⟩ := List.append_eq_nil_iff.mp hrecord
  obtain ⟨hfailed, rfl⟩ := List.append_eq_nil_iff.mp hfirst
  have hperforms := performs_of_applyActions hactions
  rw [← hstate] at hperforms
  exact ⟨actions_of_produce hfailed, hperforms⟩

theorem Execution.Begins.cleanStep (h : e.Begins flows b) (hclean : e.Clean) :
    CleanStep flows e.flow e.step b.state e.finish.state := by
  obtain ⟨flow, step, start, finish⟩ := e
  obtain rfl : start = moved b := h.start_eq
  exact ⟨h.current, h.found, _, _, hclean.actions, hclean.performs⟩

end Begins

/-! ## Runs -/

/-- The steps of a run that ends by itself without an issue are clean. -/
theorem clean_of_executes {flows : FlowCatalog} {b last : Boot} {es : List Execution}
    (h : Executes flows b es none last) (hnone : ∀ r ∈ last.log.toList, r.issues = []) :
    ∀ e ∈ es, e.Clean := by
  generalize ho : (none : Option Fault) = o at h
  induction h with
  | ended _ => exact fun e he => absurd he List.not_mem_nil
  | spent _ _ => cases ho
  | broke _ _ _ => cases ho
  | step hbegins hnext hrest ih =>
      have hlog := hrest.isPrefix_log.subset
      refine List.forall_mem_cons.mpr ⟨hbegins.clean hnext fun r hr => hnone r (hlog hr), ih hnone ho⟩

theorem cleanRun_of_executes {flows : FlowCatalog} {b last : Boot} {es : List Execution}
    (h : Executes flows b es none last) (hclean : ∀ e ∈ es, e.Clean) :
    ∃ u, CleanRun flows b.state u ∧ last.state.tpm = u.tpm := by
  generalize ho : (none : Option Fault) = o at h
  induction h with
  | @ended b b' hnext =>
      refine ⟨b.state, .halt (halts_of_ended hnext), ?_⟩
      rcases eq_of_ended hnext with rfl | rfl <;> rfl
  | spent _ _ => cases ho
  | broke _ _ _ => cases ho
  | @step b last e es o hbegins hnext hrest ih =>
      obtain ⟨u, hrun, htpm⟩ := ih (fun x hx => hclean x (by simp [hx])) ho
      exact ⟨u, .step (hbegins.cleanStep (hclean e (by simp))) hrun, htpm⟩

/-- A run that ends by itself without an issue executes clean steps. -/
theorem exists_clean_of_complete {flows : FlowCatalog} {b last : Boot}
    (h : complete flows b = (none, last)) (hnone : ∀ r ∈ last.log.toList, r.issues = []) :
    ∃ es last', Executes flows b es none last' ∧ last.state = last'.state ∧ ∀ e ∈ es, e.Clean := by
  obtain ⟨es, last', hexecutes, hstate, hlog⟩ := exists_executes flows b
  rw [h] at hexecutes hstate hlog
  rw [hlog] at hnone
  exact ⟨es, last', hexecutes, hstate, clean_of_executes hexecutes hnone⟩

theorem cleanRun_of_complete {flows : FlowCatalog} {b last : Boot}
    (h : complete flows b = (none, last)) (hnone : ∀ r ∈ last.log.toList, r.issues = []) :
    ∃ u, CleanRun flows b.state u ∧ last.state.tpm = u.tpm := by
  obtain ⟨es, last', hexecutes, hstate, hclean⟩ := exists_clean_of_complete h hnone
  rw [hstate]
  exact cleanRun_of_executes hexecutes hclean

end Boot
end MeasuredBoot
