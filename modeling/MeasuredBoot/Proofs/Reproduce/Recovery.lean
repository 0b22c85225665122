import MeasuredBoot.Proofs.Boot.Ending
import MeasuredBoot.Proofs.Reproduce.Replays
import MeasuredBoot.Proofs.Reproduce.Tandem
import MeasuredBoot.Proofs.Reproduce.Unmodified

/-!
# Recovering a changed register

Two machines with the same image differ in the value of the policy status register only. If one value is
within the search bounds of the other, the search for corrections of one machine's log finds some that
lead to the digest of the other machine: among the candidates is the log as it is, with the register of the
other machine.
-/
namespace MeasuredBoot.Pcr0

/-- A machine with a fresh TPM whose public space holds the policy status register only. -/
def machine (i : BiosImage) (registers : Option AmdRegisters) (pch psp : Bool)
    (algorithms : List Algorithm) (v : Nat) : State where
  biosImage := some i
  txtPublic := some (TxtPublic.ofList [Register.acmPolicyStatus v])
  amdRegisters := registers
  tpm := some (Tpm.fresh algorithms)
  pch := pch
  psp := psp

/-- A run from the root flow that ends by itself, without an issue, and leaves a TPM. -/
def RootRun (flows : FlowCatalog) (s : State) (t : Tpm) : Prop :=
  ∃ maxSteps last, Boot.complete flows (Boot.ofFlow s (Shipped.ref "Root") maxSteps) = (none, last) ∧
    (∀ r ∈ last.log.toList, r.issues = []) ∧ last.state.tpm = some t

section Matches
variable {flows : FlowCatalog} {p p' : TxtPublic} {a : Algorithm}

/-! ## Matching measurements -/

theorem isMeasurement_of_matches {r r' : CommandRecord} (h : Matches flows p p' r r') (a : Algorithm) :
    isMeasurement a r' = isMeasurement a r := by
  cases h with
  | same _ heq => rw [isMeasurement, isMeasurement, heq]
  | event _ he he' => rw [isMeasurement, isMeasurement, he, he']
  | data _ _ _ _ _ he he' => rw [isMeasurement, isMeasurement, he, he']

theorem matches_measurements {rs rs' : List CommandRecord}
    (h : List.Forall₂ (Matches flows p p') rs rs') (a : Algorithm) :
    List.Forall₂ (Matches flows p p') (measurements rs a) (measurements rs' a) := by
  refine List.rel_filter (fun r r' hr => ?_) h
  exact (Bool.eq_iff_iff.mp (isMeasurement_of_matches hr a)).symm

theorem map_command_of_matches {rs rs' : List CommandRecord}
    (h : List.Forall₂ (Matches flows p p') rs rs')
    (hother : ∀ r ∈ rs, isDataMeasurement flows r = .ok false) :
    rs'.map CommandRecord.command = rs.map CommandRecord.command := by
  induction h with
  | nil => rfl
  | @cons r r' rest rest' hr _ ih =>
      have hfalse := hother r (by simp)
      have hcommand : r'.command = r.command := by
        cases hr with
        | same _ heq => exact heq
        | event htrue _ _ => cases hfalse.symm.trans htrue
        | data htrue _ _ _ _ _ _ => cases hfalse.symm.trans htrue
      rw [List.map_cons, List.map_cons, hcommand, ih fun q hq => hother q (by simp [hq])]

/-- Some value that the search tries turns the measurements of one run into those of the other. -/
theorem exists_value_of_matches {v v' : Nat} {bounds : RegisterBounds}
    (hv : ∀ b, (Step.policyStatus p).read = .ok b → b = Bytes.ofNatLE 8 v)
    (hv' : ∀ b, (Step.policyStatus p').read = .ok b → b = Bytes.ofNatLE 8 v') (hlt : v < 2 ^ 64)
    (hchange : RegisterSearch.Admissible bounds v v') {ms ms' : List CommandRecord}
    (h : List.Forall₂ (Matches flows p p') ms ms') (hextends : ∀ r ∈ ms, IsExtend a r.command)
    (hfirst : ∀ r ∈ ms.tail, isDataMeasurement flows r = .ok false) :
    ∃ w, AdmitsValue flows bounds ms w ∧
      withValue a ms w = .ok (ms'.map CommandRecord.command) := by
  cases h with
  | nil => exact ⟨none, rfl, rfl⟩
  | @cons r r' rest rest' hr hrest =>
      have htail := map_command_of_matches hrest hfirst
      obtain ⟨digest, hextend⟩ := hextends r (by simp)
      cases hr with
      | same hfalse heq =>
          refine ⟨none, (admitsValue_of_other hfalse rest).mpr rfl, ?_⟩
          rw [withValue_none, List.map_cons, List.map_cons, htail, heq]
      | event _ he _ => cases hextend.symm.trans he
      | @data b register register' after digest digest' htrue hdata hread hread' hhash he he' =>
          obtain ⟨-, rfl, -⟩ := Command.extend.inj (hextend.symm.trans he)
          obtain rfl := hv _ hread
          obtain rfl := hv' _ hread'
          have hregister : (Bytes.ofNatLE 8 v).toNatLE = v := Bytes.toNatLE_ofNatLE_of_lt hlt
          have hbytes : RegisterSearch.bytes (v' : Int) = Bytes.ofNatLE 8 v' := by
            rw [RegisterSearch.bytes, RegisterSearch.wrapped_of_lt hchange.1]
          have hdigest : RegisterSearch.dataDigest (Bytes.ofNatLE 8 v ++ after)
              (RegisterSearch.bytes v') a = .ok digest' := by
            rw [RegisterSearch.dataDigest, hbytes, List.drop_left' (Bytes.length_ofNatLE 8 v)]
            exact hhash
          refine ⟨some v', (admitsValue_of_data htrue hdata rest).mpr ⟨v', rfl, ?_⟩, ?_⟩
          · rwa [hregister]
          · rw [withValue_some hdata hdigest, List.map_cons, he', htail]

end Matches

/-! ## Root runs -/

section Run
variable {flows : FlowCatalog} {i : BiosImage} {registers : Option AmdRegisters} {pch psp : Bool}
  {algorithms : List Algorithm} {v v' : Nat} {t t' : Tpm} {a : Algorithm}

theorem cleanRun_of_rootRun {s : State} (h : RootRun flows s t) :
    ∃ u, Boot.CleanRun flows (s.setFlow (Shipped.ref "Root")) u ∧ u.tpm = some t := by
  obtain ⟨maxSteps, last, hcomplete, hclean, htpm⟩ := h
  obtain ⟨u, hrun, heq⟩ := Boot.cleanRun_of_complete hcomplete hclean
  exact ⟨u, hrun, heq.symm.trans htpm⟩

theorem recorded_of_rootRun (h : RootRun flows (machine i registers pch psp algorithms v) t) :
    Recorded flows t.commands.toList := by
  obtain ⟨maxSteps, last, hcomplete, -, htpm⟩ := h
  obtain ⟨b, hreaches, heq⟩ := Boot.exists_reaches_complete flows
    (Boot.ofFlow (machine i registers pch psp algorithms v) (Shipped.ref "Root") maxSteps)
  have hunused : Driven flows (machine i registers pch psp algorithms v) := by
    refine .unused ?_
    rintro t ⟨⟩
    rfl
  refine ⟨b.state, t, .run hunused hreaches, ?_, rfl⟩
  rw [← heq, hcomplete]
  exact htpm

theorem staged_start (ha : a ∈ algorithms) :
    Staged flows a ((machine i registers pch psp algorithms v).setFlow (Shipped.ref "Root"))
      (Tpm.fresh algorithms) where
  held := rfl
  supported := ha
  chained := Or.inl ⟨rfl, rfl⟩
  bound := Int.le_refl _
  stage := ⟨Shipped.ref "Root", rfl, Or.inl ⟨Or.inl rfl, rfl⟩⟩
  localities := fun _ h => absurd h List.not_mem_nil

theorem tandem_start :
    Tandem flows (TxtPublic.ofList [Register.acmPolicyStatus v])
      (TxtPublic.ofList [Register.acmPolicyStatus v'])
      ((machine i registers pch psp algorithms v).setFlow (Shipped.ref "Root"))
      ((machine i registers pch psp algorithms v').setFlow (Shipped.ref "Root")) where
  alike := ⟨rfl, rfl, rfl, rfl⟩
  txt := rfl
  txt' := rfl
  flow := rfl
  step := rfl
  logs := ⟨_, _, rfl, rfl, .nil⟩

theorem staged_of_rootRun (h : RootRun flows (machine i registers pch psp algorithms v) t)
    (ha : a ∈ algorithms) : ∃ u,
      Boot.CleanRun flows ((machine i registers pch psp algorithms v).setFlow (Shipped.ref "Root")) u ∧
        Staged flows a u t := by
  obtain ⟨u, hrun, htpm⟩ := cleanRun_of_rootRun h
  obtain ⟨t', hstaged⟩ := staged_run hrun (staged_start ha)
  obtain rfl := Option.some.inj (htpm.symm.trans hstaged.held)
  exact ⟨u, hrun, hstaged⟩

/-- The measurements of a root run lead to the value of its register, at the locality of its start. -/
theorem replay_of_staged {s : State} (hs : Staged flows a s t) {expected : Bytes}
    (hexpected : t.value 0 a = .ok expected) :
    ∃ f locality, a.function? = some f ∧ (locality = 0 ∨ locality = 3) ∧
      Tpm.replay ((measurements t.commands.toList a).map CommandRecord.command) locality a =
        .ok expected := by
  obtain ⟨f, locality, hf, hmem, hreplay⟩ := replay_of_chained hs.chained hexpected
  exact ⟨f, locality, hf, by simpa [isStartLocality] using hs.localities locality hmem, hreplay⟩

/-- A root run leaves a value in register zero of each algorithm that the TPM supports. -/
theorem exists_value_of_rootRun (h : RootRun flows (machine i registers pch psp algorithms v) t)
    (ha : a ∈ algorithms) : ∃ expected, t.value 0 a = .ok expected := by
  obtain ⟨u, hclean, hstaged⟩ := staged_of_rootRun h ha
  have hanchored : Boot.Anchored flows
      ((machine i registers pch psp algorithms v).setFlow (Shipped.ref "Root")) (Tpm.fresh algorithms) :=
    Boot.anchored_of_switch (by decide) rfl rfl rfl (List.ne_nil_of_mem ha)
  obtain ⟨t', htpm, hinitialized⟩ := Boot.initialized_of_run hclean hanchored
  obtain rfl := Option.some.inj (hstaged.held.symm.trans htpm)
  exact Tpm.exists_value_of_chained hstaged.chained hstaged.supported hinitialized

/-- The search over the log of one machine finds corrections that lead to the digest of the other. -/
theorem reproduce_changed_register {bounds : Pcr0Bounds}
    (hrun : RootRun flows (machine i registers pch psp algorithms v) t)
    (hrun' : RootRun flows (machine i registers pch psp algorithms v') t') (hv : v < 2 ^ 64)
    (hchange : RegisterSearch.Admissible bounds.toRegisterBounds v v')
    (hflips : bounds.combinatorial = true → 0 ≤ bounds.maxFlips) (hdisabled : 0 ≤ bounds.maxDisabled)
    (hswaps : 0 ≤ bounds.maxSwaps) (ha : a ∈ algorithms) :
    ∃ expected, t'.value 0 a = .ok expected ∧
      ∃ c, Returns (reproduce flows t.commands.toList a expected bounds) (some c) := by
  obtain ⟨expected, hexpected⟩ := exists_value_of_rootRun hrun' ha
  obtain ⟨u, hclean, hstaged⟩ := staged_of_rootRun hrun ha
  obtain ⟨u', hclean', hstaged'⟩ := staged_of_rootRun hrun' ha
  obtain ⟨t₁, t₁', ht, ht', hlogs⟩ := (tandem_run hclean hclean' (staged_start ha) tandem_start).logs
  obtain rfl := Option.some.inj (hstaged.held.symm.trans ht)
  obtain rfl := Option.some.inj (hstaged'.held.symm.trans ht')
  have hrecorded := recorded_of_rootRun hrun
  obtain ⟨f, locality, hf, hl, hreplay⟩ := replay_of_staged hstaged' hexpected
  obtain ⟨w, hw, hcs⟩ := exists_value_of_matches (fun _ => Step.eq_of_read_policyStatus)
    (fun _ => Step.eq_of_read_policyStatus) hv hchange (matches_measurements hlogs a)
    (fun r hr => (legibleAll_of_recorded hrecorded a r hr).1) hstaged.dataFirst
  obtain ⟨found, hreturns, hnone, -⟩ := reproduce_complete hrecorded hf hflips expected
  refine ⟨expected, hexpected, ?_⟩
  cases found with
  | some c => exact ⟨c, hreturns⟩
  | none =>
      have hadmissible := admissible_inOrder hl hdisabled hswaps hw
      exact absurd (reproduces_inOrder hcs hreplay) (hnone.mp rfl _ hadmissible)

end Run

/-! ### Two machines -/

def markedByte (g : Guid) (offset : Int) : Node := .mk .volume offset 1 (some g) []

/-- An image of twelve bytes that boots to the end: the structures of the verified boot, a byte for each
measured volume, and a module with the magic value of the firmware's version. -/
def bootImage : BiosImage where
  content := ⟨#[1, 2, 3, 4, 5, 6, 7, 8, 0xE9, 0x4A, 0xF6, 0x3C]⟩
  regions := none
  nodes := [
    .mk .module 8 4 (some VendorVersion.v1.module) [.mk (.section Node.teSection) 8 4 none []],
    markedByte Shipped.v1Volume0 0, markedByte Shipped.v1Volume1 1, markedByte Shipped.v1Volume2 2,
    markedByte Source.dxeVolume 3]
  intel := some {
    fit := [⟨FitEntry.startupAcm, 0xFFFFFFF4, 2⟩, ⟨FitEntry.keyManifest, 0xFFFFFFF6, 1⟩,
      ⟨FitEntry.bootPolicyManifest, 0xFFFFFFF7, 1⟩]
    codeModule := some ⟨0xFFFFFFF4, ⟨0, 1⟩, ⟨1, 1⟩, true⟩
    keyManifest := some ⟨0xFFFFFFF6, ⟨0, 1⟩, true⟩
    bootPolicy := some ⟨0xFFFFFFF7, ⟨0, 1⟩, [⟨0xFFFFFFF8, 1⟩],
      [⟨.sha1, 0xFFFFFFF9, [6]⟩, ⟨.sha256, 0xFFFFFFFA, [7]⟩], true, true⟩ }
  amd := none

def bootMachine (v : Nat) : State := machine bootImage none true false [.sha1, .sha256] v

def endsClean (r : Option Fault × Boot) : Bool :=
  r.1.isNone && r.2.log.toList.all (·.issues.isEmpty) && r.2.state.tpm.isSome

theorem exists_rootRun {flows : FlowCatalog} {s : State} (maxSteps : Int)
    (h : endsClean (Boot.complete flows (Boot.ofFlow s (Shipped.ref "Root") maxSteps)) = true) :
    ∃ t, RootRun flows s t := by
  cases hcomplete : Boot.complete flows (Boot.ofFlow s (Shipped.ref "Root") maxSteps) with
  | mk fault last =>
      rw [hcomplete] at h
      simp only [endsClean, Bool.and_eq_true, List.all_eq_true, List.isEmpty_iff] at h
      obtain ⟨⟨hnone, hclean⟩, hheld⟩ := h
      obtain ⟨t, ht⟩ := Option.isSome_iff_exists.mp hheld
      rw [Option.isNone_iff_eq_none.mp hnone] at hcomplete
      exact ⟨t, maxSteps, last, hcomplete, hclean, ht⟩

theorem reproduce_changed_register_sample :
    ∃ t t', RootRun sampleFlows (bootMachine 5) t ∧ RootRun sampleFlows (bootMachine 3) t' ∧
      ∃ expected, t'.value 0 .sha1 = .ok expected ∧
        ∃ c, Returns (reproduce sampleFlows t.commands.toList .sha1 expected {}) (some c) := by
  obtain ⟨t, hrun⟩ : ∃ t, RootRun sampleFlows (bootMachine 5) t :=
    exists_rootRun Boot.usualMaxSteps (by decide +kernel)
  obtain ⟨t', hrun'⟩ : ∃ t, RootRun sampleFlows (bootMachine 3) t :=
    exists_rootRun Boot.usualMaxSteps (by decide +kernel)
  refine ⟨t, t', hrun, hrun', reproduce_changed_register hrun hrun' (by decide) ⟨by decide, ?_⟩
    (by decide) (by decide) (by decide) (by decide)⟩
  exact Or.inl (by decide)

end MeasuredBoot.Pcr0
