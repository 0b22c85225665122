import MeasuredBoot.Proofs.Boot.IssueFree
import MeasuredBoot.Proofs.Boot.Logged
import MeasuredBoot.Proofs.Step.Limits
import MeasuredBoot.Proofs.Step.Pcr0Data

/-!
# The trace of a step

A step that performs its actions adds records to the command log, all of which its TPM accepts. Each
record stands at the place of the step and is caused by one of its actions, and the boot moves on only if
one of the actions switches the flow.
-/
namespace MeasuredBoot

theorem Action.mayIssue_of_mem {s : State} {algorithms : List Algorithm} {a : Action} {cs : List Command}
    (h : commands s algorithms a = .ok cs) {c : Command} (hc : c ∈ cs) : a.MayIssue c := by
  cases a with
  | tpmInit locality =>
      cases h
      exact List.mem_singleton.mp hc
  | logEvent pcr a digest type data =>
      cases h
      exact List.mem_singleton.mp hc
  | tpmExtend pcr source b =>
      obtain ⟨d, hd, h⟩ := bind_eq_ok_iff.mp h
      obtain ⟨digest, hdigest, h⟩ := bind_eq_ok_iff.mp h
      cases h
      refine ⟨digest, List.mem_singleton.mp hc, ?_⟩
      rintro d' rfl
      cases hd
      exact hdigest
  | measure pcr source type data =>
      obtain ⟨d, -, h⟩ := bind_eq_ok_iff.mp h
      obtain ⟨b, -, h⟩ := bind_eq_ok_iff.mp h
      obtain ⟨parts, hparts, h⟩ := bind_eq_ok_iff.mp h
      cases h
      obtain ⟨part, hpart, hc⟩ := List.mem_flatten.mp hc
      obtain ⟨a, -, ha⟩ := exists_of_mem_mapM hparts hpart
      obtain ⟨digest, -, h⟩ := bind_eq_ok_iff.mp ha
      cases h
      rcases List.mem_pair.mp hc with rfl | rfl
      · exact ⟨a, digest, Or.inl rfl⟩
      · exact ⟨a, digest, Or.inr rfl⟩
  | _ =>
      cases h
      exact absurd hc List.not_mem_nil

namespace Boot

/-- A record that one of some actions writes at a step. -/
def WrittenBy (flow : Option FlowRef) (step : Int) (actions : List IssuedAction) (r : CommandRecord) :
    Prop :=
  ∃ index, ∃ a ∈ actions, r.place = some ⟨flow, step, index⟩ ∧ r.action = some a ∧
    a.action.MayIssue r.command

/-- Where a boot is after actions: where it was, or at the beginning of a flow to which one of them
switches. -/
def ArrivesBy (actions : List IssuedAction) (s u : State) : Prop :=
  (u.flow = s.flow ∧ u.step = s.step) ∨
    ∃ a ∈ actions, ∃ f, a.action = .setFlow f ∧ u.flow = some f ∧ u.step = -1

/-- What performed actions have done to a state with a TPM. -/
structure Traced (actions : List IssuedAction) (t : Tpm) (s u : State) : Prop where
  accepted : ∃ rs t', Tpm.Accepts t rs t' ∧ u.tpm = some t' ∧
    ∀ r ∈ rs, WrittenBy s.flow s.step actions r
  parts : s.SameParts u
  arrives : ArrivesBy actions s u

theorem WrittenBy.mono {flow : Option FlowRef} {step : Int} {actions more : List IssuedAction}
    {r : CommandRecord} (h : WrittenBy flow step actions r) (hsub : ∀ a ∈ actions, a ∈ more) :
    WrittenBy flow step more r := by
  obtain ⟨index, a, ha, hplace, haction, hissued⟩ := h
  exact ⟨index, a, hsub a ha, hplace, haction, hissued⟩

theorem traced_of_performed {index : Nat} {a : IssuedAction} {t : Tpm} {s u : State}
    (h : Action.Performed a t { s with action := index } u) : Traced [a] t s u := by
  obtain ⟨⟨cs, t', hcs, haccepts, htpm⟩, ⟨himage, htxt, hregisters, hpch, hpsp⟩, hmoves⟩ := h
  refine ⟨⟨_, t', haccepts, htpm, fun r hr => ?_⟩, ⟨himage, htxt, hregisters, hpch, hpsp⟩, ?_⟩
  · obtain ⟨c, hc, rfl⟩ := List.mem_map.mp hr
    exact ⟨index, a, by simp, rfl, rfl, Action.mayIssue_of_mem hcs hc⟩
  · cases haction : a.action with
    | setFlow f =>
        rw [haction] at hmoves
        exact Or.inr ⟨a, by simp, f, haction, hmoves⟩
    | _ =>
        rw [haction] at hmoves
        exact Or.inl hmoves

theorem Traced.stays {actions : List IssuedAction} {t : Tpm} {s u : State}
    (h : Traced actions t s u) (hstep : u.step ≠ -1) : u.flow = s.flow ∧ u.step = s.step := by
  obtain hstays | ⟨a, -, f, -, -, hswitched⟩ := h.arrives
  · exact hstays
  · exact absurd hswitched hstep

theorem traced_of_performs {index : Nat} {actions : List IssuedAction} {t : Tpm} {s u : State}
    (h : Performs index actions s u) (ht : s.tpm = some t) : Traced actions t s u := by
  induction h generalizing t with
  | done index s => exact ⟨⟨[], t, rfl, ht, by simp⟩, .refl s, Or.inl ⟨rfl, rfl⟩⟩
  | @switch index a rest s u ha hswitched =>
      obtain ⟨⟨rs, t', haccepts, htpm, hwritten⟩, hparts, harrives⟩ :=
        traced_of_performed (Action.apply_of_ok ha ht)
      refine ⟨⟨rs, t', haccepts, htpm, fun r hr => (hwritten r hr).mono (by simp)⟩, hparts, ?_⟩
      obtain hstays | ⟨b, hb, f, hf, hflow⟩ := harrives
      · exact Or.inl hstays
      · exact Or.inr ⟨b, by simp [List.mem_singleton.mp hb], f, hf, hflow⟩
  | @next index a rest s v u ha hstayed _ ih =>
      have hfirst := traced_of_performed (Action.apply_of_ok ha ht)
      obtain ⟨hflow, hstep⟩ := hfirst.stays hstayed
      obtain ⟨⟨rs, t', haccepts, htpm, hwritten⟩, hparts, -⟩ := hfirst
      obtain ⟨⟨qs, t'', haccepts', htpm', hwritten'⟩, hparts', harrives⟩ := ih htpm
      refine ⟨⟨rs ++ qs, t'', Tpm.accepts_append.mpr ⟨t', haccepts, haccepts'⟩, htpm', ?_⟩,
        hparts.trans hparts', ?_⟩
      · intro r hr
        rcases List.mem_append.mp hr with hr | hr
        · exact (hwritten r hr).mono (by simp)
        · have hlater := hwritten' r hr
          rw [hflow, hstep] at hlater
          exact hlater.mono fun b hb => by simp [hb]
      · obtain ⟨hflow', hstep'⟩ | ⟨b, hb, f, hf, hswitched⟩ := harrives
        · exact Or.inl ⟨hflow'.trans hflow, hstep'.trans hstep⟩
        · exact Or.inr ⟨b, by simp [hb], f, hf, hswitched⟩

/-! ## The actions of a step -/

theorem isDataAction_of_identify {s : State} {produced : List Step.Produced} {n : Nat}
    (h : Step.measurePcr0Data.actions s = .ok produced) :
    ∃ actions, Step.pcr0DataActions s = .ok actions ∧
      (identify n produced).map IssuedAction.action = actions ∧
      ∀ x ∈ identify n produced, Step.IsDataAction x.action := by
  cases hactions : Step.pcr0DataActions s with
  | error f =>
      rw [Step.actions, hactions] at h
      cases h
  | ok actions =>
      rw [Step.actions, hactions] at h
      cases h
      have hmap := map_action_newly n actions
      refine ⟨actions, rfl, hmap, fun x hx => ?_⟩
      apply Step.isDataAction_of_mem hactions _
      rw [← hmap]
      exact List.mem_map_of_mem hx

theorem within_of_identify {l : Limits} {step : Step} (hstep : step.within l = true) {s : State}
    {produced : List Step.Produced} (h : step.actions s = .ok produced) (n : Nat) :
    ∀ x ∈ identify n produced, x.action.within l = true := by
  intro x hx
  obtain ⟨y, hy, heq⟩ := exists_of_mem_identify hx
  rw [← heq]
  exact Step.actions_within hstep h y hy

end Boot
end MeasuredBoot
