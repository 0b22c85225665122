import MeasuredBoot.Proofs.Boot.Trace
import MeasuredBoot.Proofs.Flow.Stages
import MeasuredBoot.Proofs.Reproduce.Recorded

/-!
# What a root run measures

A root run without issues measures the data with the register at most once for each algorithm, and before
anything else: it has extended nothing at an early place, and a late place does not lead back. It starts
the TPM at one of the two localities, and as every command was accepted, register zero is the hash chain
over the digests that were extended.
-/
namespace MeasuredBoot.Pcr0

/-- No measurement but the first one is one of the data with the register. -/
def DataFirst (flows : FlowCatalog) (a : Algorithm) (records : List CommandRecord) : Prop :=
  ∀ r ∈ (measurements records a).tail, isDataMeasurement flows r = .ok false

/-- At an early place nothing has been measured, and at a late one the data only at first. -/
def MeasuredAt (flows : FlowCatalog) (a : Algorithm) (flow : FlowRef) (step : Int)
    (records : List CommandRecord) : Prop :=
  (Shipped.Early flow step ∧ measurements records a = []) ∨
    (Shipped.Late flow step ∧ DataFirst flows a records)

structure Staged (flows : FlowCatalog) (a : Algorithm) (s : State) (t : Tpm) : Prop where
  held : s.tpm = some t
  supported : a ∈ t.algorithms
  chained : Tpm.Chained a t
  bound : -1 ≤ s.step
  stage : ∃ flow, s.flow = some flow ∧ MeasuredAt flows a flow s.step t.commands.toList
  localities : ∀ locality, .init locality ∈ t.commandList → isStartLocality locality = true

theorem measurements_append (rs qs : List CommandRecord) (a : Algorithm) :
    measurements (rs ++ qs) a = measurements rs a ++ measurements qs a := List.filter_append ..

/-! ## The measurement of the data -/

def extendsWith (a : Algorithm) : Action → Bool
  | .tpmExtend pcr _ b => pcr = 0 && b = a
  | _ => false

/-- The step that measures the data extends register zero of an algorithm at most once. -/
theorem countP_extendsWith_le {s : State} {actions : List Action}
    (h : Step.pcr0DataActions s = .ok actions) (a : Algorithm) : actions.countP (extendsWith a) ≤ 1 := by
  have hone {t : TxtPublic} {i : BiosImage} {acm : CodeModule} {km : KeyManifest} {bpm : BootPolicy}
      {b : Algorithm} {part : List Action}
      (hpart : Step.pcr0Actions i (Step.pcr0References t i acm km bpm) bpm b = .ok part) :
      part.countP (extendsWith a) ≤ if b = a then 1 else 0 := by
    have hactions := Step.pcr0Actions_eq_ok hpart
    split at hactions
    · obtain ⟨reason, rfl⟩ := hactions
      simp [extendsWith]
    · obtain ⟨digest, -, rfl⟩ := hactions
      simp [Step.measuring, List.countP_cons, extendsWith]
  obtain ⟨reason, rfl⟩ | ⟨i, t, acm, km, bpm, first, second, -, -, -, hfirst, hsecond, rfl⟩ :=
    Step.pcr0DataActions_eq_ok h
  · simp [extendsWith]
  · have h1 := hone hfirst
    have h2 := hone hsecond
    rw [List.countP_append]
    by_cases hsha1 : Algorithm.sha1 = a
    · rw [if_pos hsha1] at h1
      rw [if_neg (by rw [← hsha1]; decide)] at h2
      omega
    · rw [if_neg hsha1] at h1
      split at h2 <;> omega

theorem length_measurements_of_apply {x : IssuedAction} (hx : Step.IsDataAction x.action) {t : Tpm}
    {s u : State} (h : Action.apply x s = .ok () u) (ht : s.tpm = some t) (a : Algorithm) :
    ∃ t', u.tpm = some t' ∧ (measurements t'.commands.toList a).length ≤
      (measurements t.commands.toList a).length + if extendsWith a x.action then 1 else 0 := by
  obtain ⟨⟨cs, t', hcs, haccepts, htpm⟩, -, -⟩ := Action.apply_of_ok h ht
  refine ⟨t', htpm, ?_⟩
  rw [(Tpm.commands_of_accepts haccepts).1, measurements_append, List.length_append]
  refine Nat.add_le_add_left ?_ _
  obtain ⟨identity, action⟩ := x
  cases hx with
  | panic reason =>
      cases hcs
      exact Nat.zero_le _
  | logEvent b digest data =>
      cases hcs
      exact Nat.zero_le _
  | extend txt rs b =>
      obtain ⟨d, -, hcs⟩ := bind_eq_ok_iff.mp hcs
      obtain ⟨digest, -, hcs⟩ := bind_eq_ok_iff.mp hcs
      cases hcs
      by_cases hb : b = a <;> simp [measurements, Action.recordsOf, isMeasurement, extendsWith, hb]

theorem length_measurements_of_performs {index : Nat} {actions : List IssuedAction} {t : Tpm}
    {s u : State} (h : Boot.Performs index actions s u) (ht : s.tpm = some t)
    (hdata : ∀ x ∈ actions, Step.IsDataAction x.action) (a : Algorithm) :
    ∃ t', u.tpm = some t' ∧ (measurements t'.commands.toList a).length ≤
      (measurements t.commands.toList a).length +
        (actions.map IssuedAction.action).countP (extendsWith a) := by
  induction h generalizing t with
  | done index s => exact ⟨t, ht, Nat.le_add_right _ _⟩
  | @switch index x rest s u hx _ =>
      obtain ⟨t', htpm, hle⟩ := length_measurements_of_apply (hdata x (by simp)) hx ht a
      refine ⟨t', htpm, hle.trans (Nat.add_le_add_left ?_ _)⟩
      rw [List.map_cons, List.countP_cons]
      exact Nat.le_add_left _ _
  | @next index x rest s v u hx _ _ ih =>
      obtain ⟨t', htpm, hle⟩ := length_measurements_of_apply (hdata x (by simp)) hx ht a
      obtain ⟨t'', htpm', hle'⟩ := ih htpm fun y hy => hdata y (by simp [hy])
      refine ⟨t'', htpm', ?_⟩
      rw [List.map_cons, List.countP_cons]
      omega

/-! ## Records of a step -/

/-- What a command within limits shows of them. -/
def Respects (l : Limits) : Command → Prop
  | .init locality => isStartLocality locality = true
  | .extend .. => l.measures = true
  | .logEvent _ => True

theorem respects_of_mayIssue {l : Limits} {action : Action} (hwithin : action.within l = true)
    {c : Command} (h : action.MayIssue c) : Respects l c := by
  cases action with
  | tpmInit locality =>
      cases h
      exact hwithin
  | tpmExtend pcr source b =>
      obtain ⟨digest, rfl, -⟩ := h
      exact (Bool.and_eq_true_iff.mp hwithin).1
  | logEvent pcr b digest type data =>
      cases h
      trivial
  | measure pcr source type data =>
      obtain ⟨b, digest, rfl | rfl⟩ := h
      · exact (Bool.and_eq_true_iff.mp hwithin).1
      · trivial
  | _ => cases h

theorem respects_of_isDataAction {action : Action} (hdata : Step.IsDataAction action) {c : Command}
    (h : action.MayIssue c) : Respects Shipped.lateLimits c := by
  cases hdata with
  | panic reason => cases h
  | extend txt rs b =>
      obtain ⟨digest, rfl, -⟩ := h
      rfl
  | logEvent b digest data =>
      cases h
      trivial

theorem measurements_eq_nil {l : Limits} (hsilent : l.measures = false) {records : List CommandRecord}
    (h : ∀ r ∈ records, Respects l r.command) (a : Algorithm) : measurements records a = [] := by
  refine List.filter_eq_nil_iff.mpr fun r hr hmeasured => ?_
  obtain ⟨digest, hextend⟩ := isExtend_of_isMeasurement hmeasured
  have hmeasures := h r hr
  rw [hextend, Respects, hsilent] at hmeasures
  cases hmeasures

theorem dataFirst_append {flows : FlowCatalog} {a : Algorithm} {rs qs : List CommandRecord}
    (h : DataFirst flows a rs) (hqs : ∀ r ∈ qs, isDataMeasurement flows r = .ok false) :
    DataFirst flows a (rs ++ qs) := by
  have hadded : ∀ r ∈ measurements qs a, isDataMeasurement flows r = .ok false :=
    fun r hr => hqs r (List.mem_of_mem_filter hr)
  intro r hr
  rw [measurements_append] at hr
  cases hmeasured : measurements rs a with
  | nil =>
      rw [hmeasured] at hr
      exact hadded r (List.mem_of_mem_tail hr)
  | cons q rest =>
      rw [hmeasured] at hr
      rcases List.mem_append.mp hr with hr | hr
      · exact h r (by rwa [hmeasured])
      · exact hadded r hr

theorem dataFirst_of_length_le {flows : FlowCatalog} {a : Algorithm} {records : List CommandRecord}
    (h : (measurements records a).length ≤ 1) : DataFirst flows a records := by
  intro r hr
  have htail : (measurements records a).tail = [] := by
    apply List.length_eq_zero_iff.mp
    rw [List.length_tail]
    omega
  rw [htail] at hr
  cases hr

/-! ## Steps -/

section Step
variable {flows : FlowCatalog} {a : Algorithm} {actions : List IssuedAction} {flow : FlowRef} {k : Int}
  {rs qs : List CommandRecord} {s u : State}

theorem respects_of_written {l : Limits} (hwithin : ∀ x ∈ actions, x.action.within l = true)
    (hwritten : ∀ r ∈ qs, Boot.WrittenBy (some flow) k actions r) :
    ∀ r ∈ qs, Respects l r.command := by
  intro r hr
  obtain ⟨index, x, hx, -, -, hissued⟩ := hwritten r hr
  exact respects_of_mayIssue (hwithin x hx) hissued

theorem measuredAt_of_silent {target : FlowRef} (hearly : Shipped.Early flow k)
    (htarget : Shipped.Early target (-1))
    (hwithin : ∀ x ∈ actions, x.action.within (Shipped.silentLimits target) = true)
    (hwritten : ∀ r ∈ qs, Boot.WrittenBy (some flow) k actions r) (hflow : s.flow = some flow)
    (hstep : s.step = k) (harrives : Boot.ArrivesBy actions s u) (hnone : measurements rs a = []) :
    ∃ flow, u.flow = some flow ∧ MeasuredAt flows a flow u.step (rs ++ qs) := by
  have hmeasured : measurements (rs ++ qs) a = [] := by
    rw [measurements_append, hnone, measurements_eq_nil rfl (respects_of_written hwithin hwritten) a]
    rfl
  obtain ⟨hstays, hsame⟩ | ⟨x, hx, f, hf, hswitched, hstart⟩ := harrives
  · refine ⟨flow, hstays.trans hflow, Or.inl ⟨?_, hmeasured⟩⟩
    rwa [hsame, hstep]
  · refine ⟨f, hswitched, ?_⟩
    have hallowed := hwithin x hx
    rw [hf, Action.within, Shipped.silentLimits] at hallowed
    rw [hstart]
    rcases Bool.or_eq_true_iff.mp hallowed with heq | hlate
    · rw [of_decide_eq_true heq]
      exact Or.inl ⟨htarget, hmeasured⟩
    · refine Or.inr ⟨Or.inl hlate, ?_⟩
      intro r hr
      rw [hmeasured] at hr
      cases hr

theorem measuredAt_of_late (hlate : Shipped.Late flow k)
    (hwithin : ∀ x ∈ actions, x.action.within Shipped.lateLimits = true)
    (hother : ∀ r ∈ qs, isDataMeasurement flows r = .ok false) (hflow : s.flow = some flow)
    (hstep : s.step = k) (harrives : Boot.ArrivesBy actions s u) (hfirst : DataFirst flows a rs) :
    ∃ flow, u.flow = some flow ∧ MeasuredAt flows a flow u.step (rs ++ qs) := by
  have hadded := dataFirst_append hfirst hother
  obtain ⟨hstays, hsame⟩ | ⟨x, hx, f, hf, hswitched, hstart⟩ := harrives
  · refine ⟨flow, hstays.trans hflow, Or.inr ⟨?_, hadded⟩⟩
    rwa [hsame, hstep]
  · refine ⟨f, hswitched, Or.inr ⟨Or.inl ?_, hadded⟩⟩
    have hallowed := hwithin x hx
    rw [hf] at hallowed
    exact hallowed

theorem measuredAt_of_data (hlate : Shipped.Late flow k)
    (hdata : ∀ x ∈ actions, Step.IsDataAction x.action) (hflow : s.flow = some flow)
    (hstep : s.step = k) (harrives : Boot.ArrivesBy actions s u)
    (hle : (measurements (rs ++ qs) a).length ≤ 1) :
    ∃ flow, u.flow = some flow ∧ MeasuredAt flows a flow u.step (rs ++ qs) := by
  obtain ⟨hstays, hsame⟩ | ⟨x, hx, f, hf, -⟩ := harrives
  · refine ⟨flow, hstays.trans hflow, Or.inr ⟨?_, dataFirst_of_length_le hle⟩⟩
    rwa [hsame, hstep]
  · have hswitch := hdata x hx
    rw [hf] at hswitch
    cases hswitch

end Step

section Run
variable {flows : FlowCatalog} {a : Algorithm} {flow : FlowRef} {step : Step} {s u : State} {t : Tpm}

theorem Staged.succ_step (hs : Staged flows a s t) : s.step + 1 = ((s.step + 1).toNat : Int) := by
  have hbound := hs.bound
  omega

/-- A place from which a root run goes on leads to a step that is within limits or measures the data. -/
theorem Staged.kind (hs : Staged flows a s t) (h : Boot.CleanStep flows flow step s u) :
    (∃ l, step.within l = true) ∨ step = .measurePcr0Data := by
  obtain ⟨_, hflow, hmeasured⟩ := hs.stage
  obtain rfl := Option.some.inj (h.current.symm.trans hflow)
  obtain ⟨hearly, -⟩ | ⟨hlate, -⟩ := hmeasured
  · obtain ⟨-, target, -, hsilent⟩ | ⟨-, hdata⟩ := Shipped.early_step h.found hs.succ_step hearly
    · exact Or.inl ⟨_, hsilent⟩
    · exact Or.inr hdata
  · exact Or.inl ⟨_, (Shipped.late_step h.found hs.succ_step hlate).2⟩

theorem bound_of_arrives {actions : List IssuedAction} (h : Boot.ArrivesBy actions s.advanced u)
    (hbound : -1 ≤ s.step) : -1 ≤ u.step := by
  rcases h with ⟨-, hsame⟩ | ⟨-, -, -, -, -, hstart⟩
  · have hadvanced : s.advanced.step = s.step + 1 := rfl
    omega
  · omega

/-- Accepted records that respect limits lead to a state of the same kind, given what was measured. -/
theorem Staged.next (hs : Staged flows a s t) {rs : List CommandRecord} {t' : Tpm}
    (haccepts : Tpm.Accepts t rs t') (htpm : u.tpm = some t') (hbound : -1 ≤ u.step) {l : Limits}
    (hrespects : ∀ r ∈ rs, Respects l r.command)
    (hstage : ∃ flow, u.flow = some flow ∧ MeasuredAt flows a flow u.step (t.commands.toList ++ rs)) :
    Staged flows a u t' := by
  obtain ⟨hcommands, halgorithms⟩ := Tpm.commands_of_accepts haccepts
  refine ⟨htpm, by rw [halgorithms]; exact hs.supported,
    Tpm.chained_accepts haccepts hs.supported hs.chained, hbound, by rwa [hcommands], ?_⟩
  intro locality hmem
  rw [Tpm.commandList, hcommands, List.map_append, List.mem_append] at hmem
  rcases hmem with hmem | hmem
  · exact hs.localities locality hmem
  · obtain ⟨r, hr, hinit⟩ := List.mem_map.mp hmem
    have hlocality := hrespects r hr
    rwa [hinit] at hlocality

/-- A step leads from a state of a root run to another one. -/
theorem staged_step (h : Boot.CleanStep flows flow step s u) (hs : Staged flows a s t) :
    ∃ t', Staged flows a u t' := by
  obtain ⟨hflow, hfound, produced, n, hproduced, hperforms⟩ := h
  have hk := hs.succ_step
  have hheld : s.advanced.tpm = some t := hs.held
  have hat : s.advanced.flow = some flow := hflow
  obtain ⟨⟨rs, t', haccepts, htpm, hwritten⟩, -, harrives⟩ := Boot.traced_of_performs hperforms hheld
  have hbound := bound_of_arrives harrives hs.bound
  rw [hat] at hwritten
  refine ⟨t', ?_⟩
  obtain ⟨_, hflow', hmeasured⟩ := hs.stage
  obtain rfl := Option.some.inj (hflow.symm.trans hflow')
  obtain ⟨hearly, hnone⟩ | ⟨hlate, hfirst⟩ := hmeasured
  · obtain ⟨hplace, target, htarget, hsilent⟩ | ⟨hplace, rfl⟩ := Shipped.early_step hfound hk hearly
    · have hwithin := Boot.within_of_identify hsilent hproduced n
      rw [← hk] at hplace
      exact hs.next haccepts htpm hbound (respects_of_written hwithin hwritten)
        (measuredAt_of_silent hplace htarget hwithin hwritten hat rfl harrives hnone)
    · obtain ⟨actions, hactions, hmap, hdata⟩ := Boot.isDataAction_of_identify (n := n) hproduced
      obtain ⟨_, htpm', hle⟩ := length_measurements_of_performs hperforms hheld hdata a
      obtain rfl := Option.some.inj (htpm.symm.trans htpm')
      rw [(Tpm.commands_of_accepts haccepts).1, hnone, hmap] at hle
      have hone := hle.trans (Nat.add_le_add_left (countP_extendsWith_le hactions a) _)
      have hrespects : ∀ r ∈ rs, Respects Shipped.lateLimits r.command := by
        intro r hr
        obtain ⟨index, x, hx, -, -, hissued⟩ := hwritten r hr
        exact respects_of_isDataAction (hdata x hx) hissued
      rw [← hk] at hplace
      exact hs.next haccepts htpm hbound hrespects
        (measuredAt_of_data hplace hdata hat rfl harrives (by simpa using hone))
  · obtain ⟨hplace, hwithin⟩ := Shipped.late_step hfound hk hlate
    have hactions := Boot.within_of_identify hwithin hproduced n
    have hothers : ∀ r ∈ rs, isDataMeasurement flows r = .ok false := by
      intro r hr
      obtain ⟨index, x, hx, hplace', -, -⟩ := hwritten r hr
      obtain ⟨c, place, cause⟩ := r
      rw [show place = _ from hplace', State.advanced, hk, isDataMeasurement_of_step hfound,
        Step.isMeasurePcr0Data_of_within hwithin]
    rw [← hk] at hplace
    exact hs.next haccepts htpm hbound (respects_of_written hactions hwritten)
      (measuredAt_of_late hplace hactions hothers hat rfl harrives hfirst)

/-- What holds throughout a root run. -/
theorem staged_run (h : Boot.CleanRun flows s u) (hs : Staged flows a s t) :
    ∃ t', Staged flows a u t' := by
  induction h generalizing t with
  | halt _ => exact ⟨t, hs⟩
  | step hstep _ ih =>
      obtain ⟨t', hs'⟩ := staged_step hstep hs
      exact ih hs'

theorem Staged.dataFirst (h : Staged flows a s t) : DataFirst flows a t.commands.toList := by
  obtain ⟨flow, -, ⟨-, hnone⟩ | ⟨-, hfirst⟩⟩ := h.stage
  · apply dataFirst_of_length_le
    rw [hnone]
    exact Nat.zero_le _
  · exact hfirst

end Run
end MeasuredBoot.Pcr0
