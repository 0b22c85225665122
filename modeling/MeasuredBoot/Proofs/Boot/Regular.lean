import MeasuredBoot.Proofs.Boot.Mirrored
import MeasuredBoot.Proofs.Flow.Order
import MeasuredBoot.Proofs.Tpm.Announced

/-!
# Regular commands of the shipped flows

Only one kind of shipped step announces anything, and it does nothing but start the TPM and announce this for
each algorithm. So in a run without issues the commands of every executed step are regular, and the TPM has
accepted those of all steps, one step after another.
-/
namespace MeasuredBoot

def Action.isQuiet : Action → Bool
  | logEvent _ _ _ type _ => type ≠ .noAction
  | measure _ _ type _ => type ≠ .noAction
  | _ => true

def Step.isQuiet : Step → Bool
  | whenHolds _ s => s.isQuiet
  | choose _ s other => s.isQuiet && other.isQuiet
  | initTpm _ logged => !logged
  | measure _ type _ _ => type ≠ .noAction
  | script items => items.all fun x => x.action.isQuiet
  | _ => true

def Step.announcesStart : Step → Bool
  | initTpm _ logged => logged
  | _ => false

theorem Step.exists_of_announcesStart {step : Step} (h : step.announcesStart = true) :
    ∃ locality, step = .initTpm locality true := by
  cases step with
  | initTpm locality logged => exact ⟨locality, congrArg _ h⟩
  | _ => cases h

def Action.command? : Action → Option Command
  | tpmInit locality => some (.init locality)
  | logEvent pcr a digest type data => some (.logEvent ⟨pcr, a, digest, type, data⟩)
  | _ => none

theorem Shipped.steps_regular : ∀ f ∈ flows, ∀ step ∈ f.steps,
    step.isMirrored = true ∧ (step.isQuiet = true ∨ step.announcesStart = true) := by
  decide

/-! ## Quiet steps -/

theorem Step.isQuiet_of_produces {step : Step} {x : Action} (h : step.Produces x)
    (hstep : step.isQuiet = true) : x.isQuiet = true := by
  induction h with
  | setActor a => rfl
  | setFlow f => rfl
  | panic reason => rfl
  | inner _ ih => exact ih hstep
  | first _ ih => exact ih (Bool.and_eq_true_iff.mp hstep).1
  | second _ ih => exact ih (Bool.and_eq_true_iff.mp hstep).2
  | start locality logged => rfl
  | announce locality a digest data => cases hstep
  | startLazily locality => rfl
  | measure pcr type source description => exact hstep
  | verified subject fallback => cases subject <;> rfl
  | unverified subject fallback => rfl
  | data hx => cases hx <;> rfl
  | psp m hx => cases hx <;> rfl
  | scripted hitem => exact List.all_eq_true.mp hstep _ hitem

theorem Action.type_of_mayIssue {a : Action} {e : EventEntry} (ha : a.isQuiet = true)
    (h : a.MayIssue (.logEvent e)) : e.type ≠ .noAction := by
  cases a with
  | tpmInit locality => cases h
  | tpmExtend pcr source b =>
      obtain ⟨digest, heq, -⟩ := h
      cases heq
  | logEvent pcr b digest type data =>
      cases h
      exact of_decide_eq_true ha
  | measure pcr source type data =>
      obtain ⟨b, digest, heq | heq⟩ := h
      · cases heq
      · cases heq
        exact of_decide_eq_true ha
  | _ => cases h

section Command
variable {a : Action} {c : Command}

theorem Action.commands_of_command? (h : a.command? = some c) (s : State) (algorithms : List Algorithm) :
    a.commands s algorithms = .ok [c] := by
  cases a with
  | tpmInit locality =>
      cases h
      rfl
  | logEvent pcr b digest type data =>
      cases h
      rfl
  | _ => cases h

theorem Action.step_of_command? (h : a.command? = some c) {s u : State} (hmoves : Moves s u a) :
    u.step = s.step := by
  cases a with
  | tpmInit locality => exact hmoves.2
  | logEvent pcr b digest type data => exact hmoves.2
  | _ => cases h

end Command

/-- The announcements of a start are events of register zero, one for each algorithm of the TPM. -/
theorem Step.map_command?_localityEvents {s : State} {t : Tpm} {locality : Int} {events : List Action}
    (ht : s.tpm = some t) (h : Step.localityEvents s locality = .ok events) :
    events.map Action.command? =
      (t.algorithms.map fun a => Command.logEvent (Tpm.announcement locality a)).map some := by
  unfold Step.localityEvents at h
  split at h
  · cases h
  · rw [ht, Option.map_some, Option.getD_some] at h
    generalize t.algorithms = algorithms at h
    induction algorithms generalizing events with
    | nil =>
        cases h
        rfl
    | cons a rest ih =>
        rw [List.mapM_cons] at h
        obtain ⟨first, hfirst, h⟩ := bind_eq_ok_iff.mp h
        obtain ⟨later, hlater, h⟩ := bind_eq_ok_iff.mp h
        obtain ⟨size, hsize, hfirst⟩ := bind_eq_ok_iff.mp hfirst
        cases h
        cases hfirst
        rw [List.map_cons, ih hlater, List.map_cons, List.map_cons, Action.command?, Tpm.announcement, hsize]
        rfl

namespace Boot
variable {flows : FlowCatalog} {b last : Boot} {e : Execution} {es : List Execution} {t : Tpm}

theorem Execution.quiet_records (e : Execution) (hstep : e.step.isQuiet = true) :
    Tpm.Quiet (e.records.map CommandRecord.command) := by
  intro x hx
  obtain ⟨r, hr, hcommand⟩ := List.mem_map.mp hx
  obtain ⟨k, a, hk, -, -, hissue⟩ := exists_cause_of_mem_written hr
  obtain ⟨produced, hactions, y, hy, heq⟩ :=
    exists_of_mem_issuedBy ((isPrefix_applied e.produced).subset (List.mem_of_getElem? hk))
  have hquiet := Step.isQuiet_of_produces (Step.produces_of_mem hactions y hy) hstep
  rw [heq] at hquiet
  rw [hcommand] at hissue
  exact Action.type_of_mayIssue hquiet hissue

/-! ## Announced starts -/

/-- Actions that give the same command in every state have given just these commands. -/
theorem commands_of_performs {index : Nat} {actions : List IssuedAction} {s u : State} {cs : List Command}
    (h : Performs index actions s u) (ht : s.tpm = some t) (hs : s.step ≠ -1)
    (hcs : actions.map (fun x => x.action.command?) = cs.map some) :
    ∃ rs t', Tpm.Accepts t rs t' ∧ u.tpm = some t' ∧ rs.map CommandRecord.command = cs := by
  induction actions generalizing index s t cs with
  | nil =>
      obtain rfl := List.map_eq_nil_iff.mp hcs.symm
      cases h
      exact ⟨[], t, rfl, ht, rfl⟩
  | cons x rest ih =>
      obtain ⟨c, later, rfl, hc, hlater⟩ := List.map_eq_cons_iff.mp hcs.symm
      obtain ⟨v, happly, hrest⟩ := exists_of_performs_cons h
      have hperformed := Action.apply_of_ok happly ht
      obtain ⟨ds, t', hds, haccepts, htpm⟩ := hperformed.accepted
      have hissues : x.action.command? = some c := hc.symm
      obtain rfl : [c] = ds := Except.ok.inj ((Action.commands_of_command? hissues _ _).symm.trans hds)
      have hstays : v.step = s.step := Action.step_of_command? hissues hperformed.moves
      rcases hrest with ⟨hswitched, -⟩ | ⟨hstayed, hperforms⟩
      · exact absurd (hstays.symm.trans hswitched) hs
      · obtain ⟨rs, t'', haccepts', htpm', hcommands⟩ := ih hperforms htpm hstayed hlater.symm
        refine ⟨_, t'', Tpm.accepts_append.mpr ⟨t', haccepts, haccepts'⟩, htpm', ?_⟩
        rw [List.map_append, map_command_recordsOf, hcommands]
        rfl

/-! ## Executed steps -/

theorem Execution.Attributed.records_eq {o : Option Fault} {rs : List CommandRecord} {t' : Tpm}
    (h : e.Attributed flows o) (hbegins : e.Begins flows b) (hb : -1 ≤ b.state.step)
    (ht : b.state.tpm = some t) (haccepts : Tpm.Accepts t rs t') (ht' : e.finish.state.tpm = some t') :
    e.records = rs := by
  have hlog := h.commandLog hbegins hb
  rw [State.commandLog, State.commandLog, ht, ht'] at hlog
  exact List.append_cancel_left (hlog.symm.trans (Tpm.commands_of_accepts haccepts).1)

/-- An executed step of a shipped kind, whose commands are regular. -/
structure Execution.Regular (e : Execution) (algorithms : List Algorithm) : Prop where
  mirrored : e.step.isMirrored = true
  commands : Tpm.Regular algorithms (e.records.map CommandRecord.command)
  start : ∀ locality, e.step = .initTpm locality true →
    e.records.map CommandRecord.command = Tpm.announcedStart locality algorithms

theorem Execution.Begins.regular (h : e.Begins flows b) (hb : -1 ≤ b.state.step)
    (hnext : nextStep flows b = .ok true e.finish)
    (hclean : CleanStep flows e.flow e.step b.state e.finish.state)
    (hstep : e.step.isMirrored = true ∧ (e.step.isQuiet = true ∨ e.step.announcesStart = true))
    (ht : b.state.tpm = some t) :
    ∃ t', Tpm.Accepts t e.records t' ∧ e.finish.state.tpm = some t' ∧ e.Regular t.algorithms := by
  obtain ⟨produced, n, hproduced, hperforms⟩ := hclean.performs
  have hattributed := h.attributed_of_ok hb hnext none
  have hat : b.state.advanced.step ≠ -1 := by
    have hplace : b.state.advanced.step = b.state.step + 1 := rfl
    omega
  obtain ⟨hmirrored, hquiet | hannounces⟩ := hstep
  · have hmirroring := Step.mirroring_actions hmirrored hproduced
    rw [← map_action_identify n] at hmirroring
    obtain ⟨rs, t', haccepts, htpm, hcommands⟩ := mirrorsFrom_of_performs hperforms ht hat hmirroring
    obtain rfl := hattributed.records_eq h hb ht haccepts htpm
    refine ⟨t', haccepts, htpm, hmirrored, .plain hcommands (e.quiet_records hquiet), fun locality heq => ?_⟩
    rw [heq] at hquiet
    cases hquiet
  · obtain ⟨locality, hinit⟩ := Step.exists_of_announcesStart hannounces
    rw [hinit] at hproduced
    obtain ⟨events, hevents, hnewly⟩ := bind_eq_ok_iff.mp hproduced
    cases hnewly
    have hlogged := Step.map_command?_localityEvents (s := b.state.advanced) ht hevents
    have hcs : (identify n (Step.newly (.tpmInit locality :: events))).map (fun x => x.action.command?) =
        (Tpm.announcedStart locality t.algorithms).map some := by
      have hmap := congrArg (List.map Action.command?) (map_action_newly n (.tpmInit locality :: events))
      rw [List.map_map, List.map_cons, hlogged] at hmap
      exact hmap
    obtain ⟨rs, t', haccepts, htpm, hcommands⟩ := commands_of_performs hperforms ht hat hcs
    obtain rfl := hattributed.records_eq h hb ht haccepts htpm
    refine ⟨t', haccepts, htpm, hmirrored, hcommands ▸ .start locality, fun other heq => ?_⟩
    rw [hinit] at heq
    cases heq
    exact hcommands

/-! ## Runs -/

/-- The TPM has accepted the commands of all executed steps, and those of each step are regular. -/
theorem regular_of_executes {next : Nat} (h : Executes flows b es none last)
    (hb : Onward flows b.state next) (hclean : ∀ e ∈ es, e.Clean) (ht : b.state.tpm = some t) :
    ∃ t', Tpm.Accepts t (es.map Execution.records).flatten t' ∧ last.state.tpm = some t' ∧
      ∀ e ∈ es, e.Regular t.algorithms := by
  generalize ho : (none : Option Fault) = o at h
  induction h generalizing next t with
  | @ended b b' hnext =>
      refine ⟨t, rfl, ?_, fun e he => absurd he List.not_mem_nil⟩
      rcases eq_of_ended hnext with rfl | rfl <;> exact ht
  | spent => cases ho
  | broke => cases ho
  | @step b last e es o hbegins hnext hrest ih =>
      obtain ⟨he, hlaterClean⟩ := List.forall_mem_cons.mp hclean
      obtain ⟨flow, hflow, hshipped, -⟩ := hb.place
      obtain rfl := Option.some.inj (hbegins.current.symm.trans hflow)
      obtain ⟨f, hf, -, hsteps⟩ := Shipped.steps_of_isShipped hshipped flows
      have hstep := Shipped.steps_regular f hf e.step (hsteps ▸ List.mem_of_getElem? hbegins.found)
      obtain ⟨t', haccepts, ht', hregular⟩ :=
        hbegins.regular hb.bound hnext (hbegins.cleanStep he) hstep ht
      obtain ⟨later, -, hlater⟩ := onward_step hbegins hb hnext
      obtain ⟨t'', haccepts', ht'', hall⟩ := ih hlater hlaterClean ht' ho
      rw [(Tpm.commands_of_accepts haccepts).2] at hall
      exact ⟨t'', Tpm.accepts_append.mpr ⟨t', haccepts, haccepts'⟩, ht'',
        List.forall_mem_cons.mpr ⟨hregular, hall⟩⟩

end Boot
end MeasuredBoot
