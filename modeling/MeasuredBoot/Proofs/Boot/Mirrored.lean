import MeasuredBoot.Proofs.Boot.Applied
import MeasuredBoot.Proofs.Boot.Trace
import MeasuredBoot.Proofs.Tpm.Mirrored

/-!
# Runs whose event log explains register zero

The shipped steps log every extend right after it, and they log nothing else but the announcement of the
locality at which the TPM was started. So after a run without issues the events, announcements left out,
replay to the value of register zero. The replay of all entries does not leave announcements out: it agrees
with the register if nothing was announced, and it differs from the register after a start that was logged.
-/
namespace MeasuredBoot

/-- An action whose commands log every extend of theirs, and announcements. -/
def Action.isMirrored : Action → Bool
  | tpmExtend .. => false
  | logEvent _ _ _ type _ => type = .noAction
  | measure _ _ type _ => type ≠ .noAction
  | _ => true

/-- A shipped step, with a type of event of its own if it measures. -/
def Step.isMirrored : Step → Bool
  | whenHolds _ s => s.isMirrored
  | choose _ s other => s.isMirrored && other.isMirrored
  | measure _ type _ _ => type ≠ .noAction
  | broken _ | script _ => false
  | _ => true

/-! ## Actions -/

theorem Tpm.mirrored_flatten {parts : List (List Command)} (h : ∀ part ∈ parts, Mirrored part) :
    Mirrored parts.flatten := by
  induction parts with
  | nil => exact mirrored_nil
  | cons part rest ih =>
      rw [List.flatten_cons]
      exact (h part (by simp)).append (ih fun x hx => h x (by simp [hx]))

theorem Action.mirrored_commands {s : State} {algorithms : List Algorithm} {a : Action} {cs : List Command}
    (ha : a.isMirrored = true) (h : commands s algorithms a = .ok cs) : Tpm.Mirrored cs := by
  cases a with
  | tpmInit locality =>
      cases h
      exact Tpm.mirrored_init locality
  | tpmExtend pcr source b => cases ha
  | logEvent pcr b digest type data =>
      cases h
      exact Tpm.mirrored_announcement (of_decide_eq_true ha)
  | measure pcr source type data =>
      obtain ⟨d, -, h⟩ := bind_eq_ok_iff.mp h
      obtain ⟨b, -, h⟩ := bind_eq_ok_iff.mp h
      obtain ⟨parts, hparts, h⟩ := bind_eq_ok_iff.mp h
      cases h
      apply Tpm.mirrored_flatten
      intro part hpart
      obtain ⟨a, -, hmeasuring⟩ := exists_of_mem_mapM hparts hpart
      obtain ⟨digest, -, heq⟩ := bind_eq_ok_iff.mp hmeasuring
      cases heq
      exact Tpm.mirrored_pair (of_decide_eq_true ha)
  | _ =>
      cases h
      exact Tpm.mirrored_nil

/-- Actions of which each is mirrored, or extends a register with fixed data and is followed by its event. -/
inductive Mirroring : List Action → Prop
  | nil : Mirroring []
  | single {a : Action} {rest : List Action} : a.isMirrored = true → Mirroring rest →
      Mirroring (a :: rest)
  | pair {pcr : Int} {d : Data} {a : Algorithm} {digest : Bytes} {type : EventType}
      {data : Option Bytes} {rest : List Action} : d.converted = .ok digest → type ≠ .noAction →
      Mirroring rest →
      Mirroring (.tpmExtend pcr (.fixed d) a :: .logEvent pcr a digest type data :: rest)

namespace Mirroring
variable {actions later : List Action}

theorem of_forall (h : ∀ a ∈ actions, a.isMirrored = true) : Mirroring actions := by
  induction actions with
  | nil => exact .nil
  | cons a rest ih => exact .single (h a (by simp)) (ih fun x hx => h x (by simp [hx]))

theorem append (h : Mirroring actions) (h' : Mirroring later) : Mirroring (actions ++ later) := by
  induction h with
  | nil => exact h'
  | single ha _ ih => exact .single ha ih
  | pair hdigest htype _ ih => exact .pair hdigest htype ih

end Mirroring

/-! ## Steps -/

namespace Step
variable {s : State}

theorem mirroring_of_pcr0Actions {t : TxtPublic} {i : BiosImage} {acm : CodeModule} {km : KeyManifest}
    {bpm : BootPolicy} {a : Algorithm} {actions : List Action}
    (h : pcr0Actions i (pcr0References t i acm km bpm) bpm a = .ok actions) : Mirroring actions := by
  have hactions := pcr0Actions_eq_ok h
  cases hd : bpm.ibbDigest? a with
  | none =>
      rw [hd] at hactions
      obtain ⟨reason, rfl⟩ := hactions
      exact .single rfl .nil
  | some d =>
      rw [hd] at hactions
      obtain ⟨digest, hdigest, rfl⟩ := hactions
      exact .pair hdigest (by decide) .nil

theorem mirroring_of_pcr0DataActions {actions : List Action} (h : pcr0DataActions s = .ok actions) :
    Mirroring actions := by
  obtain ⟨reason, rfl⟩ | ⟨i, t, acm, km, bpm, one, two, -, -, -, hone, htwo, rfl⟩ :=
    pcr0DataActions_eq_ok h
  · exact .single rfl .nil
  · exact (mirroring_of_pcr0Actions hone).append (mirroring_of_pcr0Actions htwo)

theorem mirroring_single {a : Action} {produced : List Produced} (ha : a.isMirrored = true)
    (h : (.ok (newly [a]) : Except Fault (List Produced)) = .ok produced) :
    Mirroring (produced.map Prod.snd) := by
  cases h
  exact .single ha .nil

theorem mirroring_actions {step : Step} (hstep : step.isMirrored = true) {produced : List Produced}
    (h : step.actions s = .ok produced) : Mirroring (produced.map Prod.snd) := by
  induction step generalizing produced with
  | setActor a => exact mirroring_single rfl h
  | setFlow f => exact mirroring_single rfl h
  | panic reason => exact mirroring_single rfl h
  | whenHolds c inner ih =>
      rw [actions] at h
      split at h
      · exact ih hstep h
      · cases h
        exact .nil
  | choose c inner other ih ihother =>
      obtain ⟨hinner, hother⟩ := Bool.and_eq_true_iff.mp hstep
      rw [actions] at h
      split at h
      · exact ih hinner h
      · exact ihother hother h
  | initTpm locality logged =>
      cases logged with
      | false => exact mirroring_single rfl h
      | true =>
          obtain ⟨events, hevents, h⟩ := bind_eq_ok_iff.mp h
          cases h
          rw [Boot.map_snd_newly]
          refine .single rfl (.of_forall fun x hx => ?_)
          obtain ⟨a, digest, data, rfl⟩ := exists_of_mem_localityEvents hevents hx
          rfl
  | initTpmLazily locality =>
      rw [actions] at h
      split at h
      · cases h
        exact .nil
      · exact mirroring_single rfl h
  | measure pcr type source description =>
      exact mirroring_single (a := .measure pcr source type description) hstep h
  | verify subject fallback =>
      rw [actions] at h
      split at h
      · exact mirroring_single (by cases subject <;> rfl) h
      · exact mirroring_single rfl h
  | measurePcr0Data =>
      cases hactions : pcr0DataActions s with
      | error f =>
          rw [actions, hactions] at h
          cases h
      | ok inner =>
          rw [actions, hactions] at h
          cases h
          rw [Boot.map_snd_newly]
          exact mirroring_of_pcr0DataActions hactions
  | psp m =>
      cases hactions : pspActions s m with
      | error f =>
          rw [actions, hactions] at h
          cases h
      | ok inner =>
          rw [actions, hactions] at h
          cases h
          rw [Boot.map_snd_newly]
          refine .of_forall fun x hx => ?_
          cases isPspAction_of_mem hactions x hx with
          | panic reason => rfl
          | measure hplain data => rfl
  | broken message => cases hstep
  | script items => cases hstep

end Step

namespace Boot

theorem map_command_recordsOf (s : State) (cause : IssuedAction) (cs : List Command) :
    (Action.recordsOf s cause cs).map CommandRecord.command = cs := by
  rw [Action.recordsOf, List.map_map]
  exact List.map_id cs

/-- A TPM that has accepted mirrored commands since another state. -/
def MirrorsFrom (t : Tpm) (u : State) : Prop :=
  ∃ rs t', Tpm.Accepts t rs t' ∧ u.tpm = some t' ∧ Tpm.Mirrored (rs.map CommandRecord.command)

theorem MirrorsFrom.prepend {t t' : Tpm} {rs : List CommandRecord} {u : State}
    (haccepts : Tpm.Accepts t rs t') (hmirrored : Tpm.Mirrored (rs.map CommandRecord.command))
    (h : MirrorsFrom t' u) : MirrorsFrom t u := by
  obtain ⟨qs, t'', haccepts', htpm, hmirrored'⟩ := h
  refine ⟨rs ++ qs, t'', Tpm.accepts_append.mpr ⟨t', haccepts, haccepts'⟩, htpm, ?_⟩
  rw [List.map_append]
  exact hmirrored.append hmirrored'

/-- Performed actions have given the TPM mirrored commands. The boot has to be at a step, so that an extend
does not seem to be a switch of the flow, after which its event would be left out. -/
theorem mirrorsFrom_of_performs {index : Nat} {actions : List IssuedAction} {t : Tpm} {s u : State}
    (h : Performs index actions s u) (ht : s.tpm = some t) (hs : s.step ≠ -1)
    (hactions : Mirroring (actions.map IssuedAction.action)) : MirrorsFrom t u := by
  generalize hmap : actions.map IssuedAction.action = as at hactions
  induction hactions generalizing index actions s t with
  | nil =>
      obtain rfl := List.map_eq_nil_iff.mp hmap
      cases h
      exact ⟨[], t, rfl, ht, Tpm.mirrored_nil⟩
  | @single a rest ha _ ih =>
      obtain ⟨x, later, rfl, rfl, rfl⟩ := List.map_eq_cons_iff.mp hmap
      obtain ⟨v, happly, hrest⟩ := exists_of_performs_cons h
      obtain ⟨cs, t', hcs, haccepts, htpm⟩ := (Action.apply_of_ok happly ht).accepted
      have hmirrored := Action.mirrored_commands ha hcs
      rw [← map_command_recordsOf { s with action := index } x cs] at hmirrored
      rcases hrest with ⟨-, rfl⟩ | ⟨hstayed, hlater⟩
      · exact ⟨_, t', haccepts, htpm, hmirrored⟩
      · exact (ih hlater htpm hstayed rfl).prepend haccepts hmirrored
  | @pair pcr d a digest type data rest hdigest htype _ ih =>
      obtain ⟨x, later, rfl, hx, hlater⟩ := List.map_eq_cons_iff.mp hmap
      obtain ⟨y, last, rfl, hy, rfl⟩ := List.map_eq_cons_iff.mp hlater
      obtain ⟨v, happly, hrest⟩ := exists_of_performs_cons h
      have hperformed := Action.apply_of_ok happly ht
      obtain ⟨cs, t', hcs, haccepts, htpm⟩ := hperformed.accepted
      have hmoves := hperformed.moves
      rw [hx] at hcs hmoves
      rw [Action.commands, Source.resolve, ok_bind, hdigest] at hcs
      cases hcs
      rcases hrest with ⟨hswitched, -⟩ | ⟨hstayed, hrest⟩
      · exact absurd (hmoves.2.symm.trans hswitched) hs
      · obtain ⟨w, happly', hlast⟩ := exists_of_performs_cons hrest
        obtain ⟨ds, t'', hds, haccepts', htpm'⟩ := (Action.apply_of_ok happly' htpm).accepted
        rw [hy] at hds
        cases hds
        have hboth := Tpm.accepts_append.mpr ⟨t', haccepts, haccepts'⟩
        have hmirrored : Tpm.Mirrored [.extend pcr a digest, .logEvent ⟨pcr, a, digest, type, data⟩] :=
          Tpm.mirrored_pair htype
        rcases hlast with ⟨-, rfl⟩ | ⟨hstayed', hlast⟩
        · exact ⟨_, t'', hboth, htpm', hmirrored⟩
        · exact (ih hlast htpm' hstayed' rfl).prepend hboth hmirrored

/-! ## Runs -/

/-- A boot at a step, or before the first one, the TPM of which has accepted mirrored commands only. -/
structure Mirrors (algorithms : List Algorithm) (s : State) : Prop where
  step : -1 ≤ s.step
  tpm : ∃ t, s.tpm = some t ∧ t.algorithms = algorithms ∧ t.Explained

variable {algorithms : List Algorithm}

theorem Mirrors.step_of_clean {flows : FlowCatalog} {flow : FlowRef} {step : Step} {s u : State}
    (h : CleanStep flows flow step s u) (hstep : step.isMirrored = true) (halgorithms : algorithms ≠ [])
    (hs : Mirrors algorithms s) : Mirrors algorithms u := by
  obtain ⟨t, ht, hsame, hexplained⟩ := hs.tpm
  obtain ⟨produced, n, hproduced, hperforms⟩ := h.performs
  have hat : s.advanced.step = s.step + 1 := rfl
  have hbound := hs.step
  have hmirroring := Step.mirroring_actions hstep hproduced
  rw [← map_action_identify n] at hmirroring
  obtain ⟨rs, t', haccepts, htpm, hmirrored⟩ :=
    mirrorsFrom_of_performs hperforms ht (by omega) hmirroring
  refine ⟨?_, t', htpm, (Tpm.commands_of_accepts haccepts).2.trans hsame,
    Tpm.explained_accepts haccepts (hsame ▸ halgorithms) hmirrored hexplained⟩
  obtain ⟨-, hstays⟩ | ⟨-, -, -, -, -, hswitched⟩ := (traced_of_performs hperforms ht).arrives
  · omega
  · omega

theorem Mirrors.moved {b : Boot} (h : Mirrors algorithms b.state) :
    Mirrors algorithms (Boot.moved b).state := by
  have hstep : (Boot.moved b).state.step = b.state.step + 1 := rfl
  have hbound := h.step
  exact ⟨by omega, h.tpm⟩

/-- A run all of whose steps are mirrored and have no issue; it may exceed its budget, but it does not
panic. -/
theorem mirrors_of_executes {flows : FlowCatalog} {b last : Boot} {es : List Execution} {o : Option Fault}
    (h : Executes flows b es o last) (hcalm : ∀ reason, o ≠ some (.panic reason))
    (hclean : ∀ r ∈ last.log.toList, r.issues = [] ∧ r.step.isMirrored = true)
    (halgorithms : algorithms ≠ []) (hb : Mirrors algorithms b.state) :
    Mirrors algorithms last.state := by
  induction h with
  | @ended b b' hnext =>
      rcases eq_of_ended hnext with rfl | rfl
      · exact hb
      · exact hb.moved
  | @spent b b' f hspent hnext =>
      rw [eq_of_spent hspent hnext]
      exact hb.moved
  | @broke b e f hbegins hnext hleft =>
      have hat : 0 ≤ (begun e.flow e.step e.start).state.step := by
        have hbound := hb.moved.step
        have hstart : (begun e.flow e.step e.start).state.step = b.state.step + 1 := by
          rw [hbegins.start_eq]
          rfl
        have := hb.step
        omega
      have hspec := applyActions_spec e.flow 0 e.produced (begun e.flow e.step e.start) hat
      rw [hbegins.of_error hnext hleft] at hspec
      obtain ⟨-, a, reason, -, -, rfl⟩ := hspec
      exact absurd rfl (hcalm reason)
  | @step b last e es o hbegins hnext hrest ih =>
      have hlog := hrest.isPrefix_log.subset
      have he := hbegins.clean hnext fun r hr => (hclean r (hlog hr)).1
      obtain ⟨issues, b', -, -, hrecord⟩ := hbegins.exists_record hnext
      have hmem : recordOf e.step e.start b' issues ∈ e.finish.log.toList := by
        rw [hrecord, Array.toList_push]
        simp
      exact ih hcalm hclean (hb.step_of_clean (hbegins.cleanStep he) (hclean _ (hlog hmem)).2 halgorithms)

/-- After a run of mirrored steps without issues, from a fresh TPM that the run has started at a locality, the
replay of the events without announcements is the value of register zero, for every supported algorithm. The
replay of all events is this value too if nothing was announced. -/
theorem complete_explained {flows : FlowCatalog} {b : Boot} {t : Tpm} {a : Algorithm} {locality : Int}
    (hb : -1 ≤ b.state.step) (hfresh : b.state.tpm = some (Tpm.fresh algorithms))
    (hcalm : ∀ reason, (complete flows b).1 ≠ some (.panic reason))
    (hclean : ∀ r ∈ (complete flows b).2.log.toList, r.issues = [] ∧ r.step.isMirrored = true)
    (ht : (complete flows b).2.state.tpm = some t) (hstarted : .init locality ∈ t.commandList)
    (ha : a ∈ algorithms) :
    ∃ v, t.value 0 a = .ok v ∧
      EventLog.replay (EventLog.measurements t.events.toList) 0 a locality = .ok v ∧
      ((∀ e ∈ t.events.toList, e.type ≠ .noAction) →
        EventLog.replay t.events.toList 0 a locality = .ok v) := by
  obtain ⟨es, last, hexecutes, hstate, hlog⟩ := exists_executes flows b
  rw [hlog] at hclean
  rw [hstate] at ht
  have hstart : Mirrors algorithms b.state :=
    ⟨hb, Tpm.fresh algorithms, hfresh, rfl, Tpm.explained_fresh algorithms⟩
  obtain ⟨-, u, hu, hsame, hexplained⟩ :=
    mirrors_of_executes hexecutes hcalm hclean (List.ne_nil_of_mem ha) hstart
  obtain rfl := Option.some.inj (ht.symm.trans hu)
  obtain ⟨v, hv, hreplay⟩ := Tpm.replay_of_explained hexplained (hsame ▸ ha) hstarted
  refine ⟨v, hv, hreplay, fun hsilent => ?_⟩
  have hall : EventLog.measurements t.events.toList = t.events.toList := by
    rw [EventLog.measurements, List.filter_eq_self]
    exact fun e he => decide_eq_true (hsilent e he)
  rw [← hall, hreplay]

/-- A flow that starts the TPM, announces the locality and closes with a separator. -/
def announcingFlows : FlowCatalog :=
  .ofList [⟨"Announcing", [.initTpm 3 true, Step.measureSeparator 0]⟩]

def announcingBoot : Boot :=
  ofFlow { tpm := some (Tpm.fresh [.sha1]) } ⟨.supplied, "Announcing"⟩ usualMaxSteps

theorem announcing_clean : -1 ≤ announcingBoot.state.step ∧
    announcingBoot.state.tpm = some (Tpm.fresh [.sha1]) ∧
    (∀ reason, (complete announcingFlows announcingBoot).1 ≠ some (.panic reason)) ∧
    (∀ r ∈ (complete announcingFlows announcingBoot).2.log.toList,
      r.issues = [] ∧ r.step.isMirrored = true) ∧
    ∃ t, (complete announcingFlows announcingBoot).2.state.tpm = some t ∧
      .init 3 ∈ t.commandList := by
  have hend : (complete announcingFlows announcingBoot).1.isNone = true := by decide +kernel
  have hclean : (complete announcingFlows announcingBoot).2.log.toList.all
      (fun r => r.issues.isEmpty && r.step.isMirrored) = true := by decide +kernel
  have hstarted : (complete announcingFlows announcingBoot).2.state.tpm.any
      (fun t => t.commandList.contains (.init 3)) = true := by decide +kernel
  refine ⟨by decide, rfl, fun reason h => ?_, fun r hr => ?_, ?_⟩
  · rw [h] at hend
    cases hend
  · have hr := List.all_eq_true.mp hclean r hr
    rw [Bool.and_eq_true, List.isEmpty_iff] at hr
    exact hr
  · obtain ⟨t, ht, hmem⟩ := (Option.any_eq_true _ _).mp hstarted
    exact ⟨t, ht, List.contains_iff_mem.mp hmem⟩

/-- The announcement does not disturb the replay of the measurements. -/
theorem complete_explained_sample :
    ∃ t v, (complete announcingFlows announcingBoot).2.state.tpm = some t ∧ t.value 0 .sha1 = .ok v ∧
      EventLog.replay (EventLog.measurements t.events.toList) 0 .sha1 3 = .ok v := by
  obtain ⟨hb, hfresh, hcalm, hclean, t, ht, hstarted⟩ := announcing_clean
  obtain ⟨v, hv, hreplay, -⟩ :=
    complete_explained hb hfresh hcalm hclean ht hstarted (List.mem_singleton_self Algorithm.sha1)
  exact ⟨t, v, ht, hv, hreplay⟩

/-- Replayed as a whole, the event log of the run does not give the value of the register: the announcement
counts as an extend with zeros. -/
theorem announcing_not_replayed :
    (∀ reason, (complete announcingFlows announcingBoot).1 ≠ some (.panic reason)) ∧
    (∀ r ∈ (complete announcingFlows announcingBoot).2.log.toList,
      r.issues = [] ∧ r.step.isMirrored = true) ∧
    ∃ t, (complete announcingFlows announcingBoot).2.state.tpm = some t ∧ .init 3 ∈ t.commandList ∧
      EventLog.replay t.events.toList 0 .sha1 3 ≠ t.value 0 .sha1 := by
  obtain ⟨-, -, hcalm, hclean, t, ht, hstarted⟩ := announcing_clean
  refine ⟨hcalm, hclean, t, ht, hstarted, fun heq => ?_⟩
  have hdiffers : (complete announcingFlows announcingBoot).2.state.tpm.any (fun t =>
      decide ((EventLog.replay t.events.toList 0 .sha1 3).toOption = (t.value 0 .sha1).toOption)) = false := by
    decide +kernel
  rw [ht, Option.any_some, heq] at hdiffers
  simp at hdiffers

end Boot
end MeasuredBoot
