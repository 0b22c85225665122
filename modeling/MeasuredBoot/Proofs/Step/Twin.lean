import MeasuredBoot.Proofs.Boot.Twin

/-!
# Steps on twins

What a step produces on two machines that differ in the public space. A blind step produces the same actions.
The step that measures the data of register zero panics on both machines, or on neither and then measures the
same references after the register; whether it can compute the digests does not depend on the register, so its
actions are counterparts, block by block.
-/
namespace MeasuredBoot

namespace Step

/-- What the step that measures the data issues for one algorithm, on a machine with one public space and on
its twin with another, where the register reads as given. -/
inductive Block (p p' : TxtPublic) (register register' : Bytes) : List Action → List Action → Prop
  | panic (reason : String) : Block p p' register register' [.panic reason] [.panic reason]
  | measuring {rs : References} {a : Algorithm} {rest digest digest' : Bytes}
      (hrest : References.read rs = .ok rest) (hdigest : hashBytes a (register ++ rest) = .ok digest)
      (hdigest' : hashBytes a (register' ++ rest) = .ok digest') :
      Block p p' register register' (measuring p rs a digest) (measuring p' rs a digest')

section Data
variable {p p' : TxtPublic} {register register' : Bytes}

theorem converted_policyStatus (h : (policyStatus p).read = .ok register) (rs : References)
    (a : Algorithm) : (Data.referenced (policyStatus p :: rs) (some a)).converted =
      References.read rs >>= fun rest => hashBytes a (register ++ rest) := by
  have hraw : (Data.referenced (policyStatus p :: rs) (some a)).converted =
      (References.read (policyStatus p :: rs) >>= fun b => hashBytes a b) := rfl
  rw [hraw, References.read_cons, h]
  simp only [ok_bind, bind_assoc, pure_bind]

theorem converted_of_read (h : (policyStatus p).read = .ok register) {rs : References} {rest : Bytes}
    (hrest : References.read rs = .ok rest) {a : Algorithm} {digest : Bytes}
    (hdigest : hashBytes a (register ++ rest) = .ok digest) :
    (Data.referenced (policyStatus p :: rs) (some a)).converted = .ok digest := by
  rw [converted_policyStatus h, hrest, ok_bind, hdigest]

variable (h : (policyStatus p).read = .ok register) (h' : (policyStatus p').read = .ok register')
include h h'

theorem parallel_pcr0Actions (i : BiosImage) (acm : CodeModule) (km : KeyManifest) (bpm : BootPolicy)
    (a : Algorithm) : Parallel (Block p p' register register')
      (pcr0Actions i (pcr0References p i acm km bpm) bpm a)
      (pcr0Actions i (pcr0References p' i acm km bpm) bpm a) := by
  unfold pcr0Actions
  cases bpm.ibbDigest? a with
  | none => exact .panic _
  | some d =>
      have hdata : ∀ t : TxtPublic, pcr0References t i acm km bpm ++
          [⟨State.imageArtifact i, some .physical, [d.range]⟩] =
          policyStatus t :: imageReferences i acm km bpm d := fun _ => rfl
      simp only [hdata, converted_policyStatus h, converted_policyStatus h', bind_assoc]
      refine Parallel.bind (Parallel.refl (fun _ => rfl) _).answers ?_
      rintro rest _ ⟨rfl, hrest, -⟩
      refine Parallel.bind (parallel_hashBytes a _ _).answers ?_
      rintro digest digest' ⟨-, hdigest, hdigest'⟩
      exact .measuring hrest hdigest hdigest'

/-- The step that measures the data ends alike on twins, with blocks of actions. -/
theorem parallel_pcr0DataActions {s s' : State} (hs : s.Twin p p' s') :
    Parallel (fun actions actions' => ∃ parts parts', actions = parts.flatten ∧
        actions' = parts'.flatten ∧ List.Forall₂ (Block p p' register register') parts parts')
      (pcr0DataActions s) (pcr0DataActions s') := by
  have hpanic (reason : String) : ∃ parts parts' : List (List Action), [.panic reason] = parts.flatten ∧
      [.panic reason] = parts'.flatten ∧ List.Forall₂ (Block p p' register register') parts parts' :=
    ⟨[[.panic reason]], [[.panic reason]], rfl, rfl, .cons (.panic reason) .nil⟩
  have himage : s'.image = s.image := congrArg (State.require .biosImage) hs.alike.image
  have htxt : s.txt = .ok p := congrArg (State.require .txtPublic) hs.txt
  have htxt' : s'.txt = .ok p' := congrArg State.txt hs.same
  unfold pcr0DataActions
  rw [himage, htxt, htxt']
  cases s.image with
  | error f => exact hpanic _
  | ok i =>
      simp only
      split
      · exact hpanic _
      · rename_i acm km bpm _
        split
        · exact hpanic _
        · refine Parallel.bind (.mapM fun a _ => parallel_pcr0Actions h h' i acm km bpm a) ?_
          exact fun parts parts' hparts => ⟨parts, parts', rfl, rfl, hparts⟩

theorem Block.twin {actions actions' : List Action} (hblock : Block p p' register register' actions actions') :
    List.Forall₂ Action.Twin actions actions' := by
  cases hblock with
  | panic reason => exact .cons (.same rfl rfl) .nil
  | @measuring rs a rest digest digest' hrest hdigest hdigest' =>
      have hconverted : Parallel (fun _ _ => True)
          (Data.referenced (policyStatus p :: rs) (some a)).converted
          (Data.referenced (policyStatus p' :: rs) (some a)).converted := by
        rw [converted_of_read h hrest hdigest, converted_of_read h' hrest hdigest']
        trivial
      exact .cons (.extend 0 a hconverted) (.cons (.event 0 a digest digest' _ _) .nil)

end Data

/-! ## All steps -/

/-- A step of a shipped flow: one that does not see the public space, or the one that measures the data. -/
def IsTame (step : Step) : Prop :=
  step.isBlind = true ∧ step.within Shipped.shippedLimits = true ∨ step = .measurePcr0Data

end Step

namespace Shipped

theorem steps_blind : ∀ f ∈ flows, ∀ step ∈ f.steps,
    step.isBlind = true ∨ step.isMeasurePcr0Data = true := by
  decide

theorem isTame_of_isShipped {flow : FlowRef} (h : isShipped flow = true) {flows : FlowCatalog} {k : Nat}
    {step : Step} (hfound : (flows.steps flow)[k]? = some step) : step.IsTame := by
  obtain ⟨f, hf, -, hsteps⟩ := steps_of_isShipped h flows
  rw [hsteps] at hfound
  have hmem := List.mem_of_getElem? hfound
  have hdata : step.isMeasurePcr0Data = true → step = .measurePcr0Data := by
    cases step <;> simp [Step.isMeasurePcr0Data]
  rcases steps_blind f hf step hmem with hblind | hisData
  · rcases steps_within f hf step hmem with hwithin | hisData
    · exact Or.inl ⟨hblind, hwithin⟩
    · exact Or.inr (hdata hisData)
  · exact Or.inr (hdata hisData)

end Shipped

namespace Boot
variable {p p' : TxtPublic} {register register' : Bytes}

theorem produce_eq {s s' : State} (hs : s.Twin p p' s') {step : Step}
    (hwithin : step.within Shipped.shippedLimits = true) : produce step s' = produce step s := by
  rw [produce, produce, Step.actions_eq hs.alike hwithin]

theorem allBlind_of_produce {step : Step} (hblind : step.isBlind = true)
    (hwithin : step.within Shipped.shippedLimits = true) (s : State) :
    ∀ x ∈ (produce step s).1, x.2.isBlind = true ∧ x.2.within Shipped.shippedLimits = true := by
  intro x hx
  rw [produce] at hx
  cases hactions : step.actions s with
  | error f =>
      rw [hactions] at hx
      cases hx
  | ok produced =>
      rw [hactions] at hx
      have hproduces := Step.produces_of_mem hactions x hx
      exact ⟨Step.isBlind_of_produces hproduces hblind, Step.within_of_produces hproduces hwithin⟩

/-- What the step that measures the data produces, and its issue if it cannot. -/
theorem exists_blocks (h : (Step.policyStatus p).read = .ok register)
    (h' : (Step.policyStatus p').read = .ok register') {s s' : State} (hs : s.Twin p p' s') :
    (produce .measurePcr0Data s').2 = (produce .measurePcr0Data s).2 ∧
      ∃ parts parts', (produce .measurePcr0Data s).1 = Step.newly parts.flatten ∧
        (produce .measurePcr0Data s').1 = Step.newly parts'.flatten ∧
        List.Forall₂ (Step.Block p p' register register') parts parts' := by
  have hparallel := Step.parallel_pcr0DataActions h h' hs
  simp only [produce, Step.actions]
  cases hx : Step.pcr0DataActions s <;> cases hy : Step.pcr0DataActions s' <;> rw [hx, hy] at hparallel
  · obtain rfl := hparallel
    exact ⟨rfl, [], [], rfl, rfl, .nil⟩
  · cases hparallel
  · cases hparallel
  · obtain ⟨parts, parts', rfl, rfl, hblocks⟩ := hparallel
    exact ⟨rfl, parts, parts', rfl, rfl, hblocks⟩

/-- A step of a shipped flow produces counterparts on twins, or has the same issue. -/
theorem twin_produce (h : (Step.policyStatus p).read = .ok register)
    (h' : (Step.policyStatus p').read = .ok register') {s s' : State} (hs : s.Twin p p' s') {step : Step}
    (hstep : step.IsTame) : (produce step s').2 = (produce step s).2 ∧
      List.Forall₂ Action.Twin ((produce step s).1.map Prod.snd) ((produce step s').1.map Prod.snd) := by
  rcases hstep with ⟨hblind, hwithin⟩ | rfl
  · rw [produce_eq hs hwithin]
    refine ⟨rfl, List.forall₂_same.mpr fun action haction => ?_⟩
    obtain ⟨x, hx, rfl⟩ := List.mem_map.mp haction
    obtain ⟨hxblind, hxwithin⟩ := allBlind_of_produce hblind hwithin s x hx
    exact .same hxblind hxwithin
  · obtain ⟨hissues, parts, parts', hparts, hparts', hblocks⟩ := exists_blocks h h' hs
    refine ⟨hissues, ?_⟩
    rw [hparts, hparts', map_snd_newly, map_snd_newly]
    exact List.rel_flatten (hblocks.imp fun _ _ hblock => hblock.twin h h')

end Boot
end MeasuredBoot
