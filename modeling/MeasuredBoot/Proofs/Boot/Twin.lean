import MeasuredBoot.Proofs.Boot.Applied
import MeasuredBoot.Proofs.Boot.Ending
import MeasuredBoot.Proofs.Tpm.Alike

/-!
# Boots on machines that differ in the public space

Two machines are twins if they differ in nothing but the public space, what their TPMs hold, and the evidence
that they have gathered, and the TPMs are alike. Actions that do not see the public space keep them so, and
also an extend with data that both machines can convert, and an event with its digest. Two boots on twins
therefore apply their actions in lockstep: with the same issues, to the same end.
-/
namespace MeasuredBoot

/-- Two states in a shipped flow, the first with one public space and the second with another, that otherwise
differ at most in the evidence and in what their TPMs, which are alike, hold. -/
structure State.Twin (p p' : TxtPublic) (s s' : State) : Prop where
  txt : s.txtPublic = some p
  same : s' = { s with
    txtPublic := some p', tpm := s'.tpm, measured := s'.measured, verified := s'.verified }
  tpms : ∃ t t', s.tpm = some t ∧ s'.tpm = some t' ∧ t.Alike t'
  shipped : ∃ flow, s.flow = some flow ∧ Shipped.isShipped flow = true
  bound : -1 ≤ s.step

/-- An action of one machine and that of its twin in the same place. -/
inductive Action.Twin : Action → Action → Prop
  | same {x : Action} (hblind : x.isBlind = true) (hwithin : x.within Shipped.shippedLimits = true) :
      Twin x x
  | extend (pcr : Int) (a : Algorithm) {d d' : Data}
      (h : Parallel (fun _ _ => True) d.converted d'.converted) :
      Twin (.tpmExtend pcr (.fixed d) a) (.tpmExtend pcr (.fixed d') a)
  | event (pcr : Int) (a : Algorithm) (digest digest' : Bytes) (type : EventType) (data : Option Bytes) :
      Twin (.logEvent pcr a digest type data) (.logEvent pcr a digest' type data)

/-- Two records of executed steps that tell of the same step and actor, and of the same issues. -/
structure StepRecord.Agrees (r r' : StepRecord) : Prop where
  step : r'.step = r.step
  actor : r'.actor = r.actor
  code : r'.code = r.code
  issues : r'.issues = r.issues

/-- Two boots on twins that have got equally far. -/
structure Boot.Twin (p p' : TxtPublic) (b b' : Boot) : Prop where
  state : b.state.Twin p p' b'.state
  maxSteps : b'.maxSteps = b.maxSteps
  issued : b'.issued = b.issued
  log : List.Forall₂ StepRecord.Agrees b.log.toList b'.log.toList

namespace State.Twin
variable {p p' : TxtPublic} {s s' : State} (h : s.Twin p p' s')
include h

theorem coordinates_eq : s'.coordinates = s.coordinates := (congrArg State.coordinates h.same).trans rfl

theorem flow_eq : s'.flow = s.flow := congrArg Coordinates.flow h.coordinates_eq

theorem step_eq : s'.step = s.step := congrArg Coordinates.step h.coordinates_eq

theorem actor_eq : s'.actor = s.actor := (congrArg State.actor h.same).trans rfl

theorem alike : s.Alike s' := by
  obtain ⟨t, t', ht, ht', halike⟩ := h.tpms
  refine ⟨(congrArg State.biosImage h.same).trans rfl, (congrArg State.amdRegisters h.same).trans rfl, ?_, ?_⟩
  · rw [ht, ht', Option.map_some, Option.map_some, halike.algorithms]
  · rw [ht, ht', Option.any_some, Option.any_some, halike.isInitialized_eq]

theorem withAction (index : Int) : { s with action := index }.Twin p p' { s' with action := index } where
  txt := h.txt
  same := congrArg (fun u : State => { u with action := index }) h.same
  tpms := h.tpms
  shipped := h.shipped
  bound := h.bound

theorem nextStep : { s with step := s.step + 1 }.Twin p p' { s' with step := s'.step + 1 } where
  txt := h.txt
  same := congrArg (fun u : State => { u with step := u.step + 1 }) h.same
  tpms := h.tpms
  shipped := h.shipped
  bound := Int.le_add_one h.bound

theorem isSome_tpm : s.tpm.isSome = true ∧ s'.tpm.isSome = true := by
  obtain ⟨t, t', ht, ht', -⟩ := h.tpms
  rw [ht, ht']
  exact ⟨rfl, rfl⟩

theorem theTpm_parallel : Parallel Tpm.Alike s.theTpm s'.theTpm := by
  obtain ⟨t, t', ht, ht', halike⟩ := h.tpms
  rw [theTpm, theTpm, ht, ht']
  exact halike

end State.Twin

/-! ## Actions -/

namespace Action
variable {p p' : TxtPublic}

theorem lockstep_onTpm {run run' : Tpm.Run Unit} (h : Lockstep Tpm.Alike run run') :
    Lockstep (State.Twin p p') (onTpm run) (onTpm run') := by
  intro s s' hs
  obtain ⟨t, t', ht, ht', halike⟩ := hs.tpms
  have hends := h t t' halike
  have hkept : ∀ u u', Tpm.Alike u u' →
      { s with tpm := some u }.Twin p p' { s' with tpm := some u' } := fun u u' hu =>
    ⟨hs.txt, congrArg (fun v : State => { v with tpm := some u' }) hs.same, ⟨u, u', rfl, rfl, hu⟩,
      hs.shipped, hs.bound⟩
  simp only [onTpm, ht, ht']
  cases hx : run t <;> cases hy : run' t' <;> rw [hx, hy] at hends
  · exact ⟨rfl, hkept _ _ hends.2⟩
  · cases hends
  · cases hends
  · exact ⟨hends.1, hkept _ _ hends.2⟩

theorem lockstep_command (cause cause' : IssuedAction) {c c' : Command} (h : c.SameShape c') :
    Lockstep (State.Twin p p') (command cause c) (command cause' c') :=
  .get_bind fun _ _ _ => lockstep_onTpm (Tpm.lockstep_execute h)

theorem lockstep_recordMeasured (cause cause' : IssuedAction) (source source' : Source) (d d' : Data) :
    Lockstep (State.Twin p p') (recordMeasured cause source d) (recordMeasured cause' source' d') :=
  .modify fun _ s' hs => ⟨hs.txt,
    congrArg (fun v : State => { v with
      measured := s'.measured.push (evidence s' cause' .tpm source' d') }) hs.same,
    hs.tpms, hs.shipped, hs.bound⟩

theorem lockstep_recordVerified (cause cause' : IssuedAction) (part : Part) (source : Source) (d : Data) :
    Lockstep (State.Twin p p') (recordVerified cause part source d)
      (recordVerified cause' part source d) :=
  .modify fun _ s' hs => ⟨hs.txt,
    congrArg (fun v : State => { v with
      verified := s'.verified.push (evidence s' cause' part source d) }) hs.same,
    hs.tpms, hs.shipped, hs.bound⟩

theorem parallel_resolve {s s' : State} (hs : s.Twin p p' s') {source : Source}
    (hblind : source.isBlind = true) : Parallel Eq (source.resolve s) (source.resolve s') := by
  rw [Source.resolve_eq hs.alike source hblind]
  exact .refl (fun _ => rfl) _

/-- Twins stay twins under an action and its counterpart, which end alike. -/
theorem lockstep_apply {x x' : IssuedAction} (h : x.action.Twin x'.action) :
    Lockstep (State.Twin p p') (apply x) (apply x') := by
  obtain ⟨identity, action⟩ := x
  obtain ⟨identity', action'⟩ := x'
  cases h with
  | event pcr a digest digest' type data => exact lockstep_command _ _ (.logEvent ⟨_, _, _, _, _⟩ digest')
  | @extend pcr a d d' hconverted =>
      refine .get_bind fun s s' _ => .attempt_bind (A := fun e e' => e = d ∧ e' = d') ⟨rfl, rfl⟩ ?_
      rintro _ _ ⟨rfl, rfl⟩
      refine .get_bind fun s s' hs => .attempt_bind hs.theTpm_parallel fun t t' _ => ?_
      refine .attempt_bind hconverted fun digest digest' _ => ?_
      exact (lockstep_command _ _ (.extend pcr a digest digest')).bind fun _ =>
        lockstep_recordMeasured _ _ _ _ _ _
  | same hblind hwithin =>
      cases action with
      | setActor a =>
          exact .modify fun s s' hs => ⟨hs.txt,
            congrArg (fun v : State => { v with actor := some a }) hs.same, hs.tpms, hs.shipped, hs.bound⟩
      | setFlow f =>
          exact .modify fun s s' hs => ⟨hs.txt, congrArg (fun v : State => v.setFlow f) hs.same, hs.tpms,
            ⟨f, rfl, hwithin⟩, Int.le_refl _⟩
      | panic reason => exact .throw _
      | tpmInit locality => exact lockstep_command _ _ (.refl _)
      | logEvent pcr a digest type data => exact lockstep_command _ _ (.refl _)
      | tpmExtend pcr source a =>
          refine .get_bind fun s s' hs => .attempt_bind (parallel_resolve hs hblind) ?_
          rintro d _ rfl
          refine .get_bind fun s s' hs => .attempt_bind hs.theTpm_parallel fun t t' _ => ?_
          refine .attempt_bind (Parallel.refl (fun _ => rfl) d.converted) ?_
          rintro digest _ rfl
          exact (lockstep_command _ _ (.refl _)).bind fun _ => lockstep_recordMeasured _ _ _ _ _ _
      | measure pcr source type data =>
          refine .get_bind fun s s' hs => .attempt_bind (parallel_resolve hs hblind) ?_
          rintro d _ rfl
          refine .get_bind fun s s' hs => .attempt_bind hs.theTpm_parallel fun t t' halike => ?_
          refine .attempt_bind (Parallel.refl (fun _ => rfl) d.converted) ?_
          rintro b _ rfl
          rw [halike.algorithms]
          refine Lockstep.bind (.forM fun a _ => ?_) fun _ => lockstep_recordMeasured _ _ _ _ _ _
          refine .attempt_bind (Parallel.refl (fun _ => rfl) (hashBytes a b)) ?_
          rintro digest _ rfl
          exact (lockstep_command _ _ (.refl _)).bind fun _ => lockstep_command _ _ (.refl _)
      | verifyByPch source =>
          refine .get_bind fun s s' hs => .attempt_bind (parallel_resolve hs hblind) ?_
          rintro d _ rfl
          refine .get_bind fun s s' hs => ?_
          rw [congrArg State.thePch hs.same]
          exact .attempt_bind (Parallel.refl (fun _ => rfl) s.thePch) fun _ _ _ =>
            lockstep_recordVerified _ _ _ _ _
      | verifyByPsp source =>
          refine .get_bind fun s s' hs => .attempt_bind (parallel_resolve hs hblind) ?_
          rintro d _ rfl
          refine .get_bind fun s s' hs => ?_
          rw [congrArg State.thePsp hs.same]
          exact .attempt_bind (Parallel.refl (fun _ => rfl) s.thePsp) fun _ _ _ =>
            lockstep_recordVerified _ _ _ _ _

/-! ## Commands -/

theorem measurementCommands_eq {t t' : Tpm} (h : t.Alike t') (pcr : Int) (type : EventType)
    (data : Option Bytes) (b : Bytes) (algorithms : List Algorithm) :
    measurementCommands t' pcr type data b algorithms = measurementCommands t pcr type data b algorithms := by
  induction algorithms with
  | nil => rfl
  | cons a rest ih => simp only [measurementCommands, h.canExtend_eq, ih]

theorem issues_eq {s s' : State} (hs : s.Twin p p' s') {x : Action} (hblind : x.isBlind = true) :
    issues s' x = issues s x := by
  obtain ⟨t, t', ht, ht', halike⟩ := hs.tpms
  cases x with
  | tpmInit locality => rw [issues, issues, ht, ht']; rfl
  | logEvent pcr a digest type data => rw [issues, issues, ht, ht']; rfl
  | tpmExtend pcr source a =>
      rw [issues, issues, Source.resolve_eq hs.alike source hblind, State.theTpm, State.theTpm, ht, ht']
      rfl
  | measure pcr source type data =>
      have hcommands := measurementCommands_eq halike pcr type data
      rw [issues, issues, Source.resolve_eq hs.alike source hblind, State.theTpm, State.theTpm, ht, ht']
      simp only [State.require, ok_bind, hcommands, halike.algorithms]
  | _ => rfl

end Action

namespace Boot
variable {p p' : TxtPublic}

def AllBlind (actions : List IssuedAction) : Prop :=
  ∀ a ∈ actions, a.action.isBlind = true ∧ a.action.within Shipped.shippedLimits = true

theorem written_eq {flow : FlowRef} {step : Int} {index : Nat} {actions : List IssuedAction} {s s' : State}
    (hs : s.Twin p p' s') (h : AllBlind actions) :
    written flow step index actions s' = written flow step index actions s := by
  induction actions generalizing index s s' with
  | nil => rfl
  | cons a rest ih =>
      obtain ⟨hblind, hwithin⟩ := h a (by simp)
      have hstart := hs.withAction index
      have hnext := (Action.lockstep_apply (.same hblind hwithin)).after hstart
      rw [written, written, Action.issues_eq hstart hblind,
        ih hnext fun b hb => h b (by simp [hb])]

/-! ## Boots -/

theorem Twin.withState {b b' : Boot} (hb : b.Twin p p' b') {s s' : State} (hs : s.Twin p p' s') :
    { b with state := s }.Twin p p' { b' with state := s' } := ⟨hs, hb.maxSteps, hb.issued, hb.log⟩

theorem relates_twin : Relates (State.Twin p p') (Boot.Twin p p') where
  state hb := hb.state
  withState hb hs := hb.withState hs
  withJournal _ _ hb := ⟨hb.state, hb.maxSteps, hb.issued, hb.log⟩
  withAction k hs := hs.withAction k
  step_eq hs := hs.step_eq

/-- Actions and their counterparts are applied in lockstep. -/
theorem lockstep_applyActions (flow : FlowRef) (index : Nat) {actions actions' : List IssuedAction}
    (h : List.Forall₂ (fun a a' => a.action.Twin a'.action) actions actions') :
    Lockstep (Boot.Twin p p') (applyActions flow index actions) (applyActions flow index actions') :=
  relates_twin.lockstep_applyActions flow index (h.imp fun _ _ => Action.lockstep_apply)

theorem actorCode_eq {s s' : State} (hs : s.Twin p p' s') : actorCode s' = actorCode s := by
  have hblind : ∀ actor : Actor, ∀ source, actor.code? = some source → source.isBlind = true := by
    intro actor source h
    cases actor <;> cases h <;> rfl
  unfold actorCode
  rw [hs.actor_eq]
  cases hcode : s.actor.bind Actor.code? with
  | none => rfl
  | some source =>
      obtain ⟨actor, -, hsource⟩ := Option.bind_eq_some_iff.mp hcode
      simp only [Source.resolve_eq hs.alike source (hblind actor source hsource)]

end Boot
end MeasuredBoot
