import MeasuredBoot.Proofs.Boot.Foretold

/-!
# The course of a boot from the root

The courses of the shipped flows are computed from the end: that of the firmware, in which every boot ends,
then those of the vendors, which lead to the firmware, and then that of the root. Whatever is found out about
the image, it is clear: a boot from the root panics, or it has started the TPM once, before it was used, at
locality three if a vendor's verification has succeeded and at locality zero otherwise.
-/
namespace MeasuredBoot.Shipped

open Boot

section Course
variable (flows : FlowCatalog) (f : Findings) (fuel : Nat) (p : Progress)

/-! ## The firmware -/

/-- The end of a boot in which the firmware starts the TPM unless it was started before. -/
def plainEnd (p : Progress) : Outlook := .ends { p with started := some (p.started.getD 0) }

theorem course_peiV0 : course flows f (fuel + 14) peiV0.steps p = plainEnd p := by
  obtain ⟨started, _, _⟩ := p
  cases started <;> rfl

theorem course_peiV1 : course flows f (fuel + 20) peiV1.steps p = plainEnd p := by
  obtain ⟨_, _, _, _, _, _, manifest, _, _, _, _⟩ := f
  obtain ⟨started, _, _⟩ := p
  cases manifest <;> cases started <;> rfl

/-- The end of a boot that hands over to the firmware, if that is of a known kind. -/
def firmwareEnd (f : Findings) (p : Progress) : Outlook :=
  if f.ocpV0 || f.ocpV1 then plainEnd p else .panics

theorem course_detect : course flows f (fuel + 24) detectFirmware p = firmwareEnd f p := by
  have hv0 := course_peiV0 flows f (fuel + 8) p
  have hv1 := course_peiV1 flows f (fuel + 1) p
  obtain ⟨_, _, _, _, _, _, _, _, _, ocpV0, ocpV1⟩ := f
  cases ocpV0 with
  | true => exact hv0
  | false =>
      cases ocpV1 with
      | true => exact hv1
      | false => rfl

/-! ## Intel -/

theorem course_failure : course flows f (fuel + 25) intelFailure.steps p = firmwareEnd f p :=
  course_detect flows f fuel p

def allValid (f : Findings) : Bool :=
  f.codeModuleValid && f.keyManifestValid && f.bootPolicyValid && f.bootBlockValid

/-- Each failed verification leads to the firmware; the last successful one to the start of the TPM. -/
theorem course_verified : course flows f (fuel + 38) intelVerified.steps {} =
    firmwareEnd f (if allValid f then ⟨some 3, true, true⟩ else {}) := by
  -- Once a finding is known the course up to the next switch is computed; what differs is the fuel left.
  have hfailure (k : Nat) := course_failure flows f (fuel + k) {}
  have hsuccess := course_detect flows f (fuel + 1) ⟨some 3, true, true⟩
  obtain ⟨_, _, codeModule, keyManifest, bootPolicy, bootBlock, _, _, _, _, _⟩ := f
  cases codeModule with
  | false => exact hfailure 11
  | true =>
      cases keyManifest with
      | false => exact hfailure 10
      | true =>
          cases bootPolicy with
          | false => exact hfailure 9
          | true =>
              cases bootBlock with
              | false => exact hfailure 8
              | true => exact hsuccess

theorem course_intel : course flows f (fuel + 39) intel.steps {} =
    if f.bootPolicy then firmwareEnd f (if allValid f then ⟨some 3, true, true⟩ else {}) else .panics := by
  have hverified := course_verified flows f fuel
  obtain ⟨_, bootPolicy, _, _, _, _, _, _, _, _, _⟩ := f
  cases bootPolicy with
  | true => exact hverified
  | false => rfl

/-! ## AMD -/

theorem course_amdLocality0 : course flows f (fuel + 32) amdLocality0.steps p =
    firmwareEnd f { p with started := some (p.started.getD 0) } := by
  obtain ⟨started, codeModule, data⟩ := p
  have hdetect := course_detect flows f fuel ⟨some (started.getD 0), codeModule, data⟩
  cases started with
  | some locality => exact hdetect
  | none => exact hdetect

theorem course_amdLocality3 : course flows f (fuel + 38) amdLocality3.steps {} =
    firmwareEnd f ⟨some (if f.pspDirectoryValid then 3 else 0), false, false⟩ := by
  have hsuccess := course_amdLocality0 flows f fuel ⟨some 3, false, false⟩
  have hfailure := course_amdLocality0 flows f (fuel + 3) {}
  obtain ⟨_, _, _, _, _, _, _, pspDirectory, _, _, _⟩ := f
  cases pspDirectory with
  | true => exact hsuccess
  | false => exact hfailure

theorem course_amd : course flows f (fuel + 40) amd.steps {} =
    firmwareEnd f ⟨some (if f.pspDirectoryValid then 3 else 0), false, false⟩ :=
  course_amdLocality3 flows f fuel

/-! ## From the root -/

/-- True if the Intel structures are there and all of them are valid. -/
def intelVerifies (f : Findings) : Bool := f.fit && f.bootPolicy && allValid f

/-- True if there are AMD structures, and none of Intel, and the directory of the security processor is
valid. -/
def amdVerifies (f : Findings) : Bool := !f.fit && f.manifest && f.pspDirectoryValid

/-- What a boot from the root flow has done when it ends by itself. -/
def rootProgress (f : Findings) : Progress where
  started := some (if intelVerifies f || amdVerifies f then 3 else 0)
  codeModule := intelVerifies f
  data := intelVerifies f

theorem course_root : course flows f (fuel + 42) root.steps {} =
    if f.fit then
      if f.bootPolicy then firmwareEnd f (if allValid f then ⟨some 3, true, true⟩ else {}) else .panics
    else if f.manifest then firmwareEnd f ⟨some (if f.pspDirectoryValid then 3 else 0), false, false⟩
    else .panics := by
  have hintel := course_intel flows f (fuel + 2)
  have hamd := course_amd flows f fuel
  obtain ⟨fit, _, _, _, _, _, manifest, _, _, _, _⟩ := f
  cases fit with
  | true => exact hintel
  | false =>
      cases manifest with
      | true => exact hamd
      | false => rfl

theorem firmwareEnd_eq_or (p : Progress) :
    firmwareEnd f p = .panics ∨ firmwareEnd f p = .ends { p with started := some (p.started.getD 0) } := by
  unfold firmwareEnd
  split
  · exact Or.inr rfl
  · exact Or.inl rfl

/-- A boot from the root flow panics, or it ends as the findings tell. -/
theorem course_root_eq_or : course flows f (fuel + 42) root.steps {} = .panics ∨
    course flows f (fuel + 42) root.steps {} = .ends (rootProgress f) := by
  rw [course_root]
  unfold rootProgress intelVerifies amdVerifies
  cases f.fit with
  | true =>
      cases f.bootPolicy with
      | true =>
          cases allValid f with
          | true => exact firmwareEnd_eq_or f ⟨some 3, true, true⟩
          | false => exact firmwareEnd_eq_or f {}
      | false => exact Or.inl rfl
  | false =>
      cases f.manifest with
      | true =>
          cases f.pspDirectoryValid with
          | true => exact firmwareEnd_eq_or f ⟨some 3, false, false⟩
          | false => exact firmwareEnd_eq_or f ⟨some 0, false, false⟩
      | false => exact Or.inl rfl

end Course

/-! ## Runs from the root -/

def IntelVerified (s : State) : Prop :=
  ∀ c ∈ [Condition.fitPresent, .bootPolicyPresent, .validCodeModule, .validKeyManifest, .validBootPolicy,
    .validInitialBootBlock], c.holds s = true

def AmdVerified (s : State) : Prop :=
  Condition.fitPresent.holds s = false ∧ Condition.manifestPresent.holds s = true ∧
    Condition.validPspDirectory.holds s = true

theorem intelVerifies_of_iff (s : State) :
    intelVerifies (.of s.biosImage) = true ↔ IntelVerified s := by
  simp only [IntelVerified, List.forall_mem_cons, List.not_mem_nil, false_imp_iff, implies_true, and_true]
  simp only [intelVerifies, allValid, Bool.and_eq_true, and_assoc]
  exact Iff.rfl

theorem amdVerifies_of_iff (s : State) : amdVerifies (.of s.biosImage) = true ↔ AmdVerified s := by
  simp only [amdVerifies, Bool.and_eq_true, Bool.not_eq_true', and_assoc]
  exact Iff.rfl

/-- A run from the root that ends by itself, on a machine with a fresh TPM, starts the TPM with the first of
its commands and with no other: at locality three if a vendor's verification has succeeded, and at locality
zero otherwise. No step uses the TPM too early or starts it again. The code module runs, and the data of
register zero are measured, exactly on machines with a verified Intel firmware. -/
theorem root_starts_tpm_once (flows : FlowCatalog) (s : State) (algorithms : List Algorithm)
    (maxSteps : Int) (last : Boot) (htpm : s.tpm = some (Tpm.fresh algorithms)) (hsome : algorithms ≠ [])
    (hcomputable : Tpm.Computable algorithms)
    (hrun : Boot.complete flows (Boot.ofFlow s (ref "Root") maxSteps) = (none, last)) :
    (∃ t locality rest, last.state.tpm = some t ∧ t.commandList = .init locality :: rest ∧
      (∀ c ∈ rest, ∀ l, c ≠ .init l) ∧
      (locality = 3 ↔ IntelVerified s ∨ AmdVerified s) ∧ (locality = 3 ∨ locality = 0)) ∧
    (∀ r ∈ last.log.toList, ∀ i ∈ r.issues,
      i.fault ≠ .tpm .alreadyInitialized ∧ ∀ pcr a, i.fault ≠ .tpm (.notInitialized pcr a)) ∧
    ((∃ r ∈ last.log.toList, r.Enters .codeModule) ↔ IntelVerified s) ∧
    ((∃ r ∈ last.log.toList, r.step = .measurePcr0Data) ↔ IntelVerified s) := by
  obtain ⟨es, last', hexecutes, hstate, hlog⟩ := exists_executes flows (ofFlow s (ref "Root") maxSteps)
  rw [hrun] at hexecutes hstate hlog
  have hstands : Stands flows s.biosImage algorithms root.steps {}
      (ofFlow s (ref "Root") maxSteps).state :=
    .of_leaves (g := ref "Root") ⟨rfl, rfl, rfl, Tpm.fresh algorithms, htpm, rfl⟩
  have htells := tells_of_executes hexecutes rfl hcomputable hsome 42 hstands
  rcases course_root_eq_or flows (.of s.biosImage) 0 with hpanics | hends
  · rw [hpanics] at htells
    exact htells.elim
  rw [hends] at htells
  obtain ⟨⟨t, ht, -, -, rest, hcommands, hrest⟩, records, hrecords, haccounts⟩ := htells
  obtain rfl : records = last.log.toList := by
    rw [hlog, hrecords]
    rfl
  have hheld : last.state.tpm = some t := by rw [hstate, ht]
  refine ⟨⟨t, _, rest, hheld, hcommands, ?_, ?_, ?_⟩, ?_, ?_, ?_⟩
  · intro c hc l heq
    have hother := hrest c hc
    rw [heq] at hother
    cases hother
  · rw [← intelVerifies_of_iff, ← amdVerifies_of_iff, ← Bool.or_eq_true]
    split
    · rename_i hverified
      exact iff_of_true rfl hverified
    · rename_i hfailed
      exact iff_of_false (by decide) hfailed
  · split
    · exact Or.inl rfl
    · exact Or.inr rfl
  · intro r hr i hi
    exact Fault.timely_iff.mp (haccounts.timely r hr i hi)
  · rw [← intelVerifies_of_iff]
    simpa [rootProgress] using haccounts.codeModule.symm
  · rw [← intelVerifies_of_iff]
    simpa [rootProgress, Step.isMeasurePcr0Data_iff] using haccounts.data.symm

/-- An image of four bytes, the magic value of the firmware's version, with valid AMD structures. -/
def amdImage : BiosImage where
  content := ⟨#[0xE9, 0x4A, 0xF6, 0x3C]⟩
  regions := none
  nodes := [.mk .module 0 4 (some VendorVersion.v1.module) [.mk (.section Node.teSection) 0 4 none []]]
  intel := none
  amd := some {
    pspDirectories := []
    biosDirectories := []
    embeddedFirmware := none
    entries := []
    pspVersion := none
    pspDirectoryValid := true
    biosDirectoryValid := false }

/-- The machine with the image lacks the chip that verifies it, and its registers. -/
def amdMachine : State := { biosImage := some amdImage, tpm := some (Tpm.fresh [.sha1]) }

theorem exists_last {flows : FlowCatalog} {b : Boot} (h : (complete flows b).1.isNone = true) :
    ∃ last, complete flows b = (none, last) :=
  ⟨_, Prod.ext (Option.isNone_iff_eq_none.mp h) rfl⟩

theorem root_starts_tpm_once_sample :
    ∃ last, Boot.complete {} (Boot.ofFlow amdMachine (ref "Root") usualMaxSteps) = (none, last) ∧
      ∃ t rest, last.state.tpm = some t ∧ t.commandList = .init 3 :: rest := by
  obtain ⟨last, hrun⟩ : ∃ last,
      Boot.complete {} (Boot.ofFlow amdMachine (ref "Root") usualMaxSteps) = (none, last) :=
    exists_last (by decide +kernel)
  have hcomputable : Tpm.Computable [.sha1] := by
    intro a ha
    rw [List.mem_singleton.mp ha]
    rfl
  have hverified : AmdVerified amdMachine := ⟨rfl, rfl, rfl⟩
  obtain ⟨⟨t, locality, rest, ht, hcommands, -, hlocality, -⟩, -⟩ :=
    root_starts_tpm_once {} amdMachine [.sha1] usualMaxSteps last rfl (by decide) hcomputable hrun
  rw [hlocality.mpr (Or.inr hverified)] at hcommands
  exact ⟨last, hrun, t, rest, ht, hcommands⟩

end MeasuredBoot.Shipped
