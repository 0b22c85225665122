import Mathlib.Data.List.Infix
import MeasuredBoot.Proofs.Action.Evidenced
import MeasuredBoot.Proofs.Boot.Attributed

/-!
# Measurements that happened

A run is a list of applications: every action that was applied, with the state to which it was applied. The
command log is what the applications have issued, the list of measured data is what they have added, and both
lists run in parallel: each piece of evidence belongs to one application, which is the measurement of these
data, and the TPM to which the log up to there leads accepts the commands of that application. Conversely a
measurement that raises no issue adds one piece of evidence. What a step adds is in its record, so that up to
a panic the records of a run tell all of its evidence.
-/
namespace MeasuredBoot.Boot

/-- An action and the state to which it was applied. -/
structure Application where
  cause : IssuedAction
  state : State

namespace Application

def finish (x : Application) : State := after (Action.apply x.cause) x.state

def fault? (x : Application) : Option Fault :=
  match Action.apply x.cause x.state with
  | .ok _ _ => none
  | .error f _ => some f

def records (x : Application) : List CommandRecord :=
  Action.recordsOf x.state x.cause (Action.issues x.state x.cause.action)

def added (x : Application) : List Evidence := x.finish.measured.toList.drop x.state.measured.size

def hasMeasured (x : Application) : Bool :=
  x.cause.action.measuredSource?.isSome && x.fault?.isNone

/-- Evidence for an application that measured its data into a TPM with some algorithms: the data are those of
the action, and the TPM accepts the extends of just their digests, with which the action has grown the log. -/
structure Shows (algorithms : List Algorithm) (t : Tpm) (x : Application) (m : Evidence) : Prop where
  action : m.action = some x.cause
  chain : m.chain = some .tpm
  source : x.cause.action.measuredSource? = some m.source
  data : m.source.resolve x.state = .ok m.data
  happened : ∃ cs u, Action.Measures algorithms m.data x.cause.action cs ∧
    x.records = Action.recordsOf x.state x.cause cs ∧ Tpm.Accepts t x.records u

/-- An application adds evidence exactly if it has measured data, and then one piece. -/
structure Backed (algorithms : List Algorithm) (t : Tpm) (x : Application) : Prop where
  count : x.added.length = if x.hasMeasured then 1 else 0
  shows : ∀ m ∈ x.added, x.Shows algorithms t m

theorem commandLog_finish (x : Application) :
    x.finish.commandLog = x.state.commandLog ++ x.records :=
  Action.commandLog_after_apply x.cause x.state

theorem measured_finish (x : Application) :
    x.finish.measured.toList = x.state.measured.toList ++ x.added := by
  have hgrows := (Action.stays_apply_grows x.state x.cause x.state
    ⟨List.prefix_rfl, List.prefix_rfl⟩).measured
  rw [added, ← Array.length_toList]
  exact (List.prefix_append_drop hgrows)

theorem added_of_changesTpm {x : Application} (h : x.state.ChangesTpm x.finish) : x.added = [] := by
  obtain ⟨o, ho⟩ := h
  rw [added, ho, ← Array.length_toList, List.drop_length]

/-- The TPM to which the log leads decides whether evidence for an application is sound. -/
theorem backed {t : Tpm} {x : Application} (ht : x.state.tpm = some t) : x.Backed t.algorithms t := by
  cases hrun : Action.apply x.cause x.state with
  | error f u =>
      have hfault : x.fault? = some f := by rw [fault?, hrun]
      have hchanges := Action.changesTpm_of_error hrun
      rw [← after_of_error hrun] at hchanges
      have hadded := added_of_changesTpm hchanges
      refine ⟨?_, fun m hm => ?_⟩
      · rw [hadded, hasMeasured, hfault]
        simp
      · rw [hadded] at hm
        cases hm
  | ok _ u =>
      have hfault : x.fault? = none := by rw [fault?, hrun]
      have hfinish : x.finish = u := after_of_ok hrun
      cases hsource : x.cause.action.measuredSource? with
      | none =>
          have hadded : x.added = [] := by
            rw [added, hfinish, Action.measured_eq_of_ok hrun hsource, ← Array.length_toList,
              List.drop_length]
          refine ⟨?_, fun m hm => ?_⟩
          · rw [hadded, hasMeasured, hsource]
            rfl
          · rw [hadded] at hm
            cases hm
      | some source =>
          obtain ⟨d, cs, t', hresolved, hmeasures, haccepts, rfl⟩ := Action.measured_of_ok hrun ht hsource
          have hadded : x.added = [Action.evidence x.state x.cause .tpm source d] := by
            rw [added, hfinish, Array.toList_push, ← Array.length_toList, List.drop_left]
          have hrecords : x.records = Action.recordsOf x.state x.cause cs := by
            have hlog := x.commandLog_finish
            rw [hfinish, State.commandLog, State.commandLog, ht] at hlog
            exact List.append_cancel_left (hlog.symm.trans (Tpm.commands_of_accepts haccepts).1)
          refine ⟨?_, fun m hm => ?_⟩
          · rw [hadded, hasMeasured, hsource, hfault]
            rfl
          · rw [hadded, List.mem_singleton] at hm
            subst hm
            exact ⟨rfl, rfl, hsource, hresolved, cs, t', hmeasures, hrecords, hrecords ▸ haccepts⟩

end Application

/-- The applications of actions that are applied one after another, numbered from `index` on. -/
def applications (index : Nat) : List IssuedAction → State → List Application
  | [], _ => []
  | a :: rest, s =>
    ⟨a, { s with action := index }⟩ ::
      applications (index + 1) rest (after (Action.apply a) { s with action := index })

def Execution.applications (e : Execution) : List Application :=
  Boot.applications 0 e.applied e.start.state

theorem map_cause_applications (index : Nat) (actions : List IssuedAction) (s : State) :
    (applications index actions s).map Application.cause = actions := by
  induction actions generalizing index s with
  | nil => rfl
  | cons a rest ih => rw [applications, List.map_cons, ih]

/-! ## Applications one after another -/

/-- What the applications up to a state have left behind there, beginning with a TPM and some evidence. -/
structure Accounted (t : Tpm) (measured : List Evidence) (xs : List Application) (s : State) : Prop where
  log : s.commandLog = xs.flatMap Application.records
  tpm : s.LoggedFrom t
  measured : s.measured.toList = measured ++ xs.flatMap Application.added
  backed : ∀ earlier x later, xs = earlier ++ x :: later →
    x.Backed t.algorithms (t.afterAll (earlier.flatMap Application.records))

section Account
variable {t : Tpm} {measured : List Evidence} {xs : List Application} {s : State}

theorem Accounted.moved (h : Accounted t measured xs s) (step action : Int) :
    Accounted t measured xs { s with step := step, action := action } :=
  ⟨h.log, h.tpm, h.measured, h.backed⟩

theorem Accounted.applied (h : Accounted t measured xs s) (a : IssuedAction) :
    Accounted t measured (xs ++ [⟨a, s⟩]) (after (Action.apply a) s) where
  log := by
    rw [Action.commandLog_after_apply, h.log, List.flatMap_append, List.flatMap_singleton]
    rfl
  tpm := Action.stays_apply_loggedFrom t a s h.tpm
  measured := by
    have hfinish := (⟨a, s⟩ : Application).measured_finish
    rw [List.flatMap_append, List.flatMap_singleton, ← List.append_assoc, ← h.measured]
    exact hfinish
  backed := by
    intro earlier x later hsplit
    rcases List.eq_nil_or_concat later with rfl | ⟨front, last, rfl⟩
    · obtain ⟨rfl, hx⟩ := List.append_inj' hsplit rfl
      cases hx
      have hbacked := Application.backed (x := ⟨a, s⟩) h.tpm
      rwa [Tpm.algorithms_afterAll, h.log] at hbacked
    · rw [List.concat_eq_append, ← List.cons_append, ← List.append_assoc] at hsplit
      exact h.backed earlier x front (List.append_inj' hsplit rfl).1

theorem Accounted.applications (h : Accounted t measured xs s) (index : Nat)
    (actions : List IssuedAction) :
    Accounted t measured (xs ++ Boot.applications index actions s) (stateAfter index actions s) := by
  induction actions generalizing index xs s with
  | nil =>
      rw [Boot.applications, List.append_nil]
      exact h
  | cons a rest ih =>
      rw [Boot.applications, stateAfter, List.append_cons]
      exact ih ((h.moved s.step index).applied a) (index + 1)

/-- A measurement without a fault is among the evidence. -/
theorem Accounted.exists_shows (h : Accounted t measured xs s) {x : Application} (hx : x ∈ xs)
    (hfault : x.fault? = none) (hsource : x.cause.action.measuredSource?.isSome = true) :
    ∃ m ∈ s.measured.toList, ∃ u, x.Shows t.algorithms u m := by
  obtain ⟨earlier, later, rfl⟩ := List.append_of_mem hx
  obtain ⟨hcount, hshows⟩ := h.backed earlier x later rfl
  have hmeasured : x.hasMeasured = true := by
    rw [Application.hasMeasured, hsource, hfault]
    rfl
  rw [if_pos hmeasured] at hcount
  obtain ⟨m, hm⟩ := List.length_eq_one_iff.mp hcount
  have hadded : m ∈ x.added := hm ▸ List.mem_singleton_self m
  refine ⟨m, ?_, _, hshows m hadded⟩
  rw [h.measured]
  exact List.mem_append_right _ (List.mem_flatMap.mpr ⟨x, hx, hadded⟩)

end Account

/-! ## Evidence and records -/

/-- The evidence of a run is that of another state, followed by what the records of the run hold. -/
structure Recorded (s₀ : State) (b : Boot) : Prop where
  measured : b.state.measured.toList = s₀.measured.toList ++ BootLog.measured b.log.toList
  verified : b.state.verified.toList = s₀.verified.toList ++ BootLog.verified b.log.toList

theorem grows_stateAfter (index : Nat) (actions : List IssuedAction) (s : State) :
    s.Grows (stateAfter index actions s) := by
  induction actions generalizing index s with
  | nil => exact ⟨List.prefix_rfl, List.prefix_rfl⟩
  | cons a rest ih =>
      have hfirst := Action.stays_apply_grows s a { s with action := index }
        ⟨List.prefix_rfl, List.prefix_rfl⟩
      have hrest := ih (index + 1) (after (Action.apply a) { s with action := index })
      exact ⟨hfirst.measured.trans hrest.measured, hfirst.verified.trans hrest.verified⟩

theorem toList_extract_of_prefix {α : Type} {xs ys : Array α} (h : xs.toList <+: ys.toList) :
    ys.toList = xs.toList ++ (ys.extract xs.size ys.size).toList := by
  rw [Array.toList_extract, List.extract_eq_take_drop, ← Array.length_toList, ← Array.length_toList,
    List.take_of_length_le (by simp)]
  exact List.prefix_append_drop h

section Begins
variable {flows : FlowCatalog} {b : Boot} {e : Execution} {s₀ : State}

/-- A step that was done leaves what it has added in its record. -/
theorem Execution.Begins.recorded (h : e.Begins flows b) (hb : -1 ≤ b.state.step)
    (hnext : nextStep flows b = .ok true e.finish) (hbefore : Recorded s₀ b) :
    Recorded s₀ e.finish := by
  obtain ⟨issues, b', -, hstate, hlog⟩ := h.exists_record hnext
  have hfinish := (h.attributed_of_ok hb hnext none).finish
  rw [Execution.stateAt, List.take_length] at hfinish
  have hgrows := grows_stateAfter 0 e.applied e.start.state
  rw [← hfinish, hstate] at hgrows
  have hstart : e.start.state.measured = b.state.measured ∧ e.start.state.verified = b.state.verified := by
    rw [h.start_eq]
    exact ⟨rfl, rfl⟩
  constructor
  · rw [hstate, hlog, Array.toList_push, BootLog.measured, List.flatMap_append, List.flatMap_singleton,
      ← List.append_assoc, ← BootLog.measured, ← hbefore.measured, ← hstart.1]
    exact toList_extract_of_prefix hgrows.measured
  · rw [hstate, hlog, Array.toList_push, BootLog.verified, List.flatMap_append, List.flatMap_singleton,
      ← List.append_assoc, ← BootLog.verified, ← hbefore.verified, ← hstart.2]
    exact toList_extract_of_prefix hgrows.verified

end Begins

/-! ## Whole runs -/

theorem Execution.Attributed.accounted {flows : FlowCatalog} {b : Boot} {e : Execution} {o : Option Fault}
    {t : Tpm} {measured : List Evidence} {xs : List Application} (h : e.Attributed flows o)
    (hbegins : e.Begins flows b) (hbefore : Accounted t measured xs b.state) :
    Accounted t measured (xs ++ e.applications) e.finish.state := by
  have hstart : Accounted t measured xs e.start.state := by
    rw [hbegins.start_eq]
    exact hbefore.moved _ _
  rw [h.finish, Execution.stateAt, List.take_length]
  exact hstart.applications 0 e.applied

/-- What the executions of a run have left behind at its end. -/
theorem accounted_of_executes {flows : FlowCatalog} {b last : Boot} {es : List Execution}
    {o : Option Fault} {t : Tpm} {measured : List Evidence} {xs : List Application}
    (h : Executes flows b es o last) (hb : -1 ≤ b.state.step)
    (hbefore : Accounted t measured xs b.state) :
    Accounted t measured (xs ++ es.flatMap Execution.applications) last.state := by
  induction h generalizing xs with
  | @ended b b' hnext =>
      rw [List.flatMap_nil, List.append_nil]
      rcases eq_of_ended hnext with rfl | rfl
      · exact hbefore
      · exact hbefore.moved _ _
  | @spent b b' f hspent hnext =>
      rw [List.flatMap_nil, List.append_nil, eq_of_spent hspent hnext]
      exact hbefore.moved _ _
  | @broke b e f hbegins hnext hleft =>
      rw [List.flatMap_singleton]
      exact (hbegins.attributed_of_error hb hnext hleft).accounted hbegins hbefore
  | @step b last e es o hbegins hnext _ ih =>
      have he := hbegins.attributed_of_ok hb hnext o
      rw [List.flatMap_cons, ← List.append_assoc]
      exact ih (he.step_ge hbegins hb) (he.accounted hbegins hbefore)

/-- After every step that was done, and at the end unless an action has ended the run, the records of a run
hold all of its evidence. -/
theorem recorded_of_executes {flows : FlowCatalog} {b last : Boot} {es : List Execution}
    {o : Option Fault} {s₀ : State} (h : Executes flows b es o last) (hb : -1 ≤ b.state.step)
    (hbefore : Recorded s₀ b) :
    (∀ e ∈ es, executeStep e.flow e.step e.start = .ok () e.finish → Recorded s₀ e.finish) ∧
      ((∀ reason, o ≠ some (.panic reason)) → Recorded s₀ last) := by
  induction h with
  | @ended b b' hnext =>
      refine ⟨fun e he => absurd he List.not_mem_nil, fun _ => ?_⟩
      rcases eq_of_ended hnext with rfl | rfl
      · exact hbefore
      · exact ⟨hbefore.measured, hbefore.verified⟩
  | @spent b b' f hspent hnext =>
      refine ⟨fun e he => absurd he List.not_mem_nil, fun _ => ?_⟩
      rw [eq_of_spent hspent hnext]
      exact ⟨hbefore.measured, hbefore.verified⟩
  | @broke b e f hbegins hnext hleft =>
      have hactions := hbegins.of_error hnext hleft
      refine ⟨fun x hx hdone => ?_, fun hcalm => ?_⟩
      · rw [List.mem_singleton.mp hx, executeStep_of_error hactions] at hdone
        cases hdone
      · have hat : 0 ≤ (begun e.flow e.step e.start).state.step :=
          hbegins.step_eq hb ▸ Int.natCast_nonneg e.index
        have hspec := applyActions_spec e.flow 0 e.produced (begun e.flow e.step e.start) hat
        rw [hactions] at hspec
        obtain ⟨-, a, reason, -, -, hf⟩ := hspec
        exact absurd (congrArg some hf) (hcalm reason)
  | @step b last e es o hbegins hnext _ ih =>
      have he := hbegins.recorded hb hnext hbefore
      obtain ⟨hall, hlast⟩ := ih ((hbegins.attributed_of_ok hb hnext o).step_ge hbegins hb) he
      refine ⟨fun x hx hdone => ?_, hlast⟩
      rcases List.mem_cons.mp hx with rfl | hx
      · exact he
      · exact hall x hx hdone

theorem accounted_start {s : State} {algorithms : List Algorithm}
    (h : s.tpm = some (Tpm.fresh algorithms)) :
    Accounted (Tpm.fresh algorithms) s.measured.toList [] s := by
  have hempty : s.commandLog = [] := by
    rw [State.commandLog, h]
    rfl
  refine ⟨hempty, ?_, (List.append_nil _).symm, fun earlier x later hsplit => by simp at hsplit⟩
  rw [State.LoggedFrom, hempty]
  exact h

theorem recorded_start {b : Boot} (h : b.log = #[]) : Recorded b.state b := by
  constructor
  · rw [h]
    exact (List.append_nil _).symm
  · rw [h]
    exact (List.append_nil _).symm

/-- Every measurement in the evidence of a run on a fresh TPM has happened: the command log and the new
evidence are what the applied actions have written and added, in order, and each piece belongs to a measuring
action whose extends the TPM has accepted. A measurement that raises no issue adds one piece, any other action
none. The records of the run hold all evidence, after every executed step. -/
theorem complete_evidenced (flows : FlowCatalog) (b : Boot) {algorithms : List Algorithm}
    (hb : -1 ≤ b.state.step) (hfresh : b.state.tpm = some (Tpm.fresh algorithms)) (hlog : b.log = #[]) :
    ∃ es last xs, Executes flows b es (complete flows b).1 last ∧
      (complete flows b).2.state = last.state ∧ (complete flows b).2.log = last.log ∧
      xs = es.flatMap Execution.applications ∧
      xs.map Application.cause = es.flatMap Execution.applied ∧
      last.state.commandLog = xs.flatMap Application.records ∧
      last.state.measured.toList = b.state.measured.toList ++ xs.flatMap Application.added ∧
      (∀ earlier x later, xs = earlier ++ x :: later →
        x.Backed algorithms ((Tpm.fresh algorithms).afterAll (earlier.flatMap Application.records))) ∧
      (∀ e ∈ es, executeStep e.flow e.step e.start = .ok () e.finish → Recorded b.state e.finish) ∧
      ((∀ reason, (complete flows b).1 ≠ some (.panic reason)) → Recorded b.state last) := by
  obtain ⟨es, last, hexecutes, hstate, hrecords⟩ := exists_executes flows b
  have haccounted := accounted_of_executes hexecutes hb (accounted_start hfresh)
  obtain ⟨hsteps, hlast⟩ := recorded_of_executes hexecutes hb (recorded_start hlog)
  refine ⟨es, last, es.flatMap Execution.applications, hexecutes, hstate, hrecords, rfl, ?_,
    haccounted.log, haccounted.measured, haccounted.backed, hsteps, hlast⟩
  rw [List.map_flatMap]
  exact List.flatMap_congr fun e _ => map_cause_applications 0 e.applied e.start.state

/-- A flow that measures before the TPM is started and, with the same action, once more afterwards. -/
def repeatingFlows : FlowCatalog := .ofList [⟨"Repeating", [
  .script [⟨0, .measure 0 (.bytes [0]) .separator none⟩], .initTpm 0 false,
  .script [⟨0, .measure 0 (.bytes [0]) .separator none⟩]]⟩]

def repeatingBoot : Boot :=
  ofFlow { tpm := some (Tpm.fresh [.sha1]) } ⟨.supplied, "Repeating"⟩ usualMaxSteps

/-- The extend before the start is in the log, but it is no evidence. -/
theorem complete_evidenced_sample : -1 ≤ repeatingBoot.state.step ∧
    repeatingBoot.state.tpm = some (Tpm.fresh [.sha1]) ∧ repeatingBoot.log = #[] ∧
    ∃ es last xs, Executes repeatingFlows repeatingBoot es (complete repeatingFlows repeatingBoot).1 last ∧
      xs = es.flatMap Execution.applications ∧
      last.state.commandLog = xs.flatMap Application.records ∧
      last.state.measured.toList = xs.flatMap Application.added ∧
      last.state.commandLog.length = 4 ∧ last.state.measured.size = 1 := by
  have hstep : -1 ≤ repeatingBoot.state.step := by decide
  obtain ⟨es, last, xs, hexecutes, hstate, -, hxs, -, hlog, hmeasured, -⟩ :=
    complete_evidenced repeatingFlows repeatingBoot hstep rfl rfl
  refine ⟨hstep, rfl, rfl, es, last, xs, hexecutes, hxs, hlog, hmeasured, ?_⟩
  rw [← hstate]
  decide +kernel

end MeasuredBoot.Boot
