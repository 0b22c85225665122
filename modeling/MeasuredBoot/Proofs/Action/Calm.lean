import MeasuredBoot.Proofs.Tpm.Started

/-!
# Actions that keep a boot where it is

A calm action neither moves the boot to another flow, nor changes who runs, nor starts the TPM; and it uses
the TPM only if that was started. It may fail, but never by blaming the time at which it used the TPM.
-/
namespace MeasuredBoot

def Action.isCalm (started : Option Int) : Action → Bool
  | setActor _ | setFlow _ | tpmInit _ => false
  | tpmExtend .. | logEvent .. | measure .. => started.isSome
  | panic _ | verifyByPch _ | verifyByPsp _ => true

/-- A boot at a step of a flow, on a machine with some image, or none, and a TPM with some algorithms that is
fresh or was started. -/
structure State.AtStep (flow : FlowRef) (step : Int) (image : Option BiosImage)
    (algorithms : List Algorithm) (started : Option Int) (s : State) : Prop where
  flow : s.flow = some flow
  step : s.step = step
  image : s.biosImage = image
  tpm : ∃ t, s.tpm = some t ∧ t.StartedAt algorithms started

namespace Action
variable {flow : FlowRef} {step : Int} {image : Option BiosImage} {algorithms : List Algorithm}
  {started : Option Int} {s : State}

theorem keeps_onTpm {run : Tpm.Run Unit} (h : Keeps (Tpm.StartedAt algorithms started) Fault.Timely run) :
    Keeps (State.AtStep flow step image algorithms started) Fault.Timely (onTpm run) where
  stays := by
    intro s hs
    obtain ⟨t, ht, hstarted⟩ := hs.tpm
    have hkept := h.stays t hstarted
    have hafter : after (onTpm run) s = { s with tpm := some (after run t) } := by
      simp only [after, onTpm, ht]
      cases run t <;> rfl
    rw [hafter]
    exact ⟨hs.flow, hs.step, hs.image, _, rfl, hkept⟩
  faults := by
    intro s hs f u hf
    obtain ⟨t, ht, hstarted⟩ := hs.tpm
    simp only [onTpm, ht] at hf
    cases hrun : run t with
    | ok _ v =>
        rw [hrun] at hf
        cases hf
    | error e v =>
        rw [hrun] at hf
        cases hf
        exact h.faults t hstarted f v hrun

theorem keeps_command {cause : IssuedAction} {c : Command} (hc : Tpm.starts c = false)
    (hstarted : started.isSome = true) :
    Keeps (State.AtStep flow step image algorithms started) Fault.Timely (command cause c) := by
  obtain ⟨locality, rfl⟩ := Option.isSome_iff_exists.mp hstarted
  exact .get_bind fun s _ => keeps_onTpm (Tpm.keeps_execute hc)

theorem keeps_recordMeasured (cause : IssuedAction) (source : Source) (d : Data) :
    Keeps (State.AtStep flow step image algorithms started) Fault.Timely
      (recordMeasured cause source d) := .modify fun _ hs => ⟨hs.flow, hs.step, hs.image, hs.tpm⟩

theorem keeps_recordVerified (cause : IssuedAction) (part : Part) (source : Source) (d : Data) :
    Keeps (State.AtStep flow step image algorithms started) Fault.Timely
      (recordVerified cause part source d) := .modify fun _ hs => ⟨hs.flow, hs.step, hs.image, hs.tpm⟩

theorem keeps_apply {cause : IssuedAction} (h : cause.action.isCalm started = true) :
    Keeps (State.AtStep flow step image algorithms started) Fault.Timely (apply cause) := by
  obtain ⟨identity, action⟩ := cause
  cases action with
  | setActor a => cases h
  | setFlow f => cases h
  | tpmInit locality => cases h
  | panic reason => exact .throw trivial
  | logEvent pcr a digest type data => exact keeps_command rfl h
  | tpmExtend pcr source a =>
      refine .get_bind fun s _ => ?_
      refine .attempt_bind (timely_of_onData (Source.onData_resolve s source)) fun d _ => ?_
      refine .get_bind fun s _ => .attempt_bind (timely_of_onData s.onData_theTpm) fun t _ => ?_
      refine .attempt_bind (timely_of_onData d.onData_converted) fun digest _ => ?_
      exact (keeps_command rfl h).bind fun _ => keeps_recordMeasured _ source d
  | measure pcr source type data =>
      refine .get_bind fun s _ => ?_
      refine .attempt_bind (timely_of_onData (Source.onData_resolve s source)) fun d _ => ?_
      refine .get_bind fun s _ => .attempt_bind (timely_of_onData s.onData_theTpm) fun t _ => ?_
      refine .attempt_bind (timely_of_onData d.onData_converted) fun b _ => ?_
      refine Keeps.bind (.forM fun a _ => ?_) fun _ => keeps_recordMeasured _ source d
      refine .attempt_bind (timely_of_onData (onData_hashBytes a b)) fun digest _ => ?_
      exact (keeps_command rfl h).bind fun _ => keeps_command rfl h
  | verifyByPch source =>
      refine .get_bind fun s _ => ?_
      refine .attempt_bind (timely_of_onData (Source.onData_resolve s source)) fun d _ => ?_
      refine .get_bind fun s _ => .attempt_bind (timely_of_onData s.onData_thePch) fun _ _ => ?_
      exact keeps_recordVerified _ .pch source d
  | verifyByPsp source =>
      refine .get_bind fun s _ => ?_
      refine .attempt_bind (timely_of_onData (Source.onData_resolve s source)) fun d _ => ?_
      refine .get_bind fun s _ => .attempt_bind (timely_of_onData s.onData_thePsp) fun _ _ => ?_
      exact keeps_recordVerified _ .psp source d

theorem apply_tpmInit {cause : IssuedAction} {locality : Int} (h : cause.action = .tpmInit locality)
    (hs : s.AtStep flow step image algorithms none) (hcomputable : Tpm.Computable algorithms)
    (hsome : algorithms ≠ []) (hlow : 0 ≤ locality) (hhigh : locality ≤ 255) :
    ∃ u, apply cause s = .ok () u ∧ u.AtStep flow step image algorithms (some locality) := by
  obtain ⟨t, ht, hfresh⟩ := hs.tpm
  obtain ⟨u, hu, hstarted⟩ := Tpm.exists_started
    (r := ⟨.init locality, some s.coordinates, some cause⟩) rfl hcomputable hsome hlow hhigh
  have happly : apply cause s = command cause (.init locality) s := by
    rw [apply, h]
  rw [show t = Tpm.fresh algorithms from hfresh] at ht
  exact ⟨{ s with tpm := some u }, happly.trans (command_of_executed ht hu),
    hs.flow, hs.step, hs.image, u, rfl, hstarted⟩

end Action
end MeasuredBoot
