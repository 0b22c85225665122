import Mathlib.Algebra.Group.Nat.Defs
import Mathlib.Data.List.Forall2
import MeasuredBoot.Proofs.Reference.Content
import MeasuredBoot.Proofs.Runs
import MeasuredBoot.Step.Actions

/-!
# The step that measures the data of register zero

The step either panics or extends register zero with the digest of references, of which the first one is
the policy status register. The digest is computed when the actions are produced, so the references can be
read, and the measured data begin with the eight bytes of the register.
-/
namespace MeasuredBoot

/-! ## Actions -/

namespace Step

def policyStatus (t : TxtPublic) : Reference := ⟨State.txtArtifact t, none, [Register.acmPolicyStatusRange]⟩

theorem length_of_read_policyStatus {t : TxtPublic} {register : Bytes}
    (h : (policyStatus t).read = .ok register) : register.length = 8 := by
  have hlength := (Reference.read_range_of_ok (by decide) h).2
  exact Int.ofNat_inj.mp hlength

theorem registers_policyStatus (v : Nat) :
    TxtPublic.ofList [Register.acmPolicyStatus v] = ⟨[Register.acmPolicyStatus v]⟩ := by
  simp [TxtPublic.ofList, Register.acmPolicyStatus, Register.txtBase, Register.txtSize,
    Register.acmPolicyStatusRange]

theorem read_registers_policyStatus (v : Nat) :
    TxtPublic.read ⟨[Register.acmPolicyStatus v]⟩ Register.acmPolicyStatusRange.offset
      Register.acmPolicyStatusRange.length = (Register.acmPolicyStatus v).bytesUpTo 8 := rfl

theorem read_policyStatus {v : Nat} (h : v < 2 ^ 64) :
    (policyStatus (TxtPublic.ofList [Register.acmPolicyStatus v])).read = .ok (Bytes.ofNatLE 8 v) := by
  have hfits : v ≠ 0 → (v.log2 : Int) < 64 := by
    intro hzero
    have hlt := (Nat.log2_lt hzero).mpr h
    omega
  have hfree : (Register.acmPolicyStatus v).obstacle? = none := by
    have hnonneg : ¬ (v : Int) < 0 := by omega
    simpa [Register.obstacle?, Register.acmPolicyStatus, Register.acmPolicyStatusRange,
      Register.maxWidth, Register.overhead, hnonneg] using hfits
  have hbytes : (Register.acmPolicyStatus v).bytesUpTo 8 = .ok (Bytes.ofNatLE 8 v) := by
    rw [Register.bytesUpTo, Register.verify, hfree]
    rfl
  rw [registers_policyStatus]
  refine Reference.read_range (by decide) ((read_registers_policyStatus v).trans hbytes) ?_
  rw [Bytes.length_ofNatLE]
  rfl

theorem eq_of_read_policyStatus {v : Nat} {b : Bytes}
    (h : (policyStatus (TxtPublic.ofList [Register.acmPolicyStatus v])).read = .ok b) :
    b = Bytes.ofNatLE 8 v := by
  rw [registers_policyStatus] at h
  have hread := (Reference.read_range_of_ok (by decide) h).1
  obtain ⟨⟨⟩, -, heq⟩ := bind_eq_ok_iff.mp ((read_registers_policyStatus v).symm.trans hread)
  exact (Except.ok.inj heq).symm

/-- The references that are measured after the policy status register, for one algorithm. -/
def imageReferences (i : BiosImage) (acm : CodeModule) (km : KeyManifest) (bpm : BootPolicy)
    (d : IbbDigest) : References :=
  ([acm.versionRange, acm.signatureRange, km.signatureRange, bpm.signatureRange].map fun r =>
      ⟨State.imageArtifact i, some .physical, [r]⟩) ++ [⟨State.imageArtifact i, some .physical, [d.range]⟩]

def measuring (t : TxtPublic) (rs : References) (a : Algorithm) (digest : Bytes) : List Action :=
  [.tpmExtend 0 (.fixed (.referenced (policyStatus t :: rs) (some a))) a,
    .logEvent 0 a digest .crtmContents (some (Bytes.ofLatin (pcr0Description ++ a.name)))]

theorem pcr0Actions_eq_ok {t : TxtPublic} {i : BiosImage} {acm : CodeModule} {km : KeyManifest}
    {bpm : BootPolicy} {a : Algorithm} {actions : List Action}
    (h : pcr0Actions i (pcr0References t i acm km bpm) bpm a = .ok actions) :
    match bpm.ibbDigest? a with
    | none => ∃ reason, actions = [.panic reason]
    | some d => ∃ digest, (Data.referenced (policyStatus t :: imageReferences i acm km bpm d)
        (some a)).converted = .ok digest ∧
        actions = measuring t (imageReferences i acm km bpm d) a digest := by
  unfold pcr0Actions at h
  cases hd : bpm.ibbDigest? a with
  | none =>
      rw [hd] at h
      cases h
      exact ⟨_, rfl⟩
  | some d =>
      rw [hd] at h
      obtain ⟨digest, hdigest, heq⟩ := bind_eq_ok_iff.mp h
      cases heq
      exact ⟨digest, hdigest, rfl⟩

def measuredStructures (i : BiosImage) : Option (CodeModule × KeyManifest × BootPolicy) := do
  let f ← i.intel
  return (← f.codeModule, ← f.keyManifest, ← f.bootPolicy)

/-- Unless the step panics, its actions are those for the two algorithms. -/
theorem pcr0DataActions_eq_ok {s : State} {actions : List Action} (h : pcr0DataActions s = .ok actions) :
    (∃ reason, actions = [.panic reason]) ∨
      ∃ i t acm km bpm one two, s.image = .ok i ∧ s.txt = .ok t ∧
        measuredStructures i = some (acm, km, bpm) ∧
        pcr0Actions i (pcr0References t i acm km bpm) bpm .sha1 = .ok one ∧
        pcr0Actions i (pcr0References t i acm km bpm) bpm .sha256 = .ok two ∧
        actions = one ++ two := by
  unfold pcr0DataActions at h
  split at h
  · cases h
    exact Or.inl ⟨_, rfl⟩
  · cases h
    exact Or.inl ⟨_, rfl⟩
  · rename_i i t hi ht
    simp only at h
    split at h
    · cases h
      exact Or.inl ⟨_, rfl⟩
    · rename_i acm km bpm hfound
      split at h
      · cases h
        exact Or.inl ⟨_, rfl⟩
      · obtain ⟨parts, hparts, heq⟩ := bind_eq_ok_iff.mp h
        simp only [List.mapM_cons, List.mapM_nil] at hparts
        obtain ⟨one, hone, hrest⟩ := bind_eq_ok_iff.mp hparts
        obtain ⟨last, hlast, hcons⟩ := bind_eq_ok_iff.mp hrest
        obtain ⟨two, htwo, hpair⟩ := bind_eq_ok_iff.mp hlast
        cases hpair
        cases hcons
        cases heq
        exact Or.inr ⟨i, t, acm, km, bpm, one, two, hi, ht, hfound, hone, htwo, by simp⟩

/-- An action that the step produces: a panic, the extend with the register in front, or its event. -/
inductive IsDataAction : Action → Prop
  | panic (reason : String) : IsDataAction (.panic reason)
  | extend (t : TxtPublic) (rs : References) (a : Algorithm) :
      IsDataAction (.tpmExtend 0 (.fixed (.referenced (policyStatus t :: rs) (some a))) a)
  | logEvent (a : Algorithm) (digest : Bytes) (data : Option Bytes) :
      IsDataAction (.logEvent 0 a digest .crtmContents data)

theorem isDataAction_of_mem_pcr0Actions {t : TxtPublic} {i : BiosImage} {acm : CodeModule}
    {km : KeyManifest} {bpm : BootPolicy} {a : Algorithm} {actions : List Action}
    (h : pcr0Actions i (pcr0References t i acm km bpm) bpm a = .ok actions) :
    ∀ x ∈ actions, IsDataAction x := by
  have hactions := pcr0Actions_eq_ok h
  cases hd : bpm.ibbDigest? a with
  | none =>
      rw [hd] at hactions
      obtain ⟨reason, rfl⟩ := hactions
      intro x hx
      rw [List.mem_singleton.mp hx]
      exact .panic reason
  | some d =>
      rw [hd] at hactions
      obtain ⟨digest, -, rfl⟩ := hactions
      intro x hx
      rcases List.mem_pair.mp hx with rfl | rfl
      · exact .extend t _ a
      · exact .logEvent a digest _

/-- The policy status register and the references to an image that are measured behind it. -/
def IsPcr0Data (a : Algorithm) (x : Data) : Prop :=
  ∃ t i acm km bpm d, x = .referenced (policyStatus t :: imageReferences i acm km bpm d) (some a)

/-- What the step extends are the register and references to the image. -/
theorem exists_of_extend_mem {s : State} {actions : List Action} (h : pcr0DataActions s = .ok actions)
    {pcr : Int} {source : Source} {a : Algorithm} (hx : .tpmExtend pcr source a ∈ actions) :
    ∃ x, source = .fixed x ∧ IsPcr0Data a x := by
  have hpart {t : TxtPublic} {i : BiosImage} {acm : CodeModule} {km : KeyManifest} {bpm : BootPolicy}
      {b : Algorithm} {part : List Action} (hactions : pcr0Actions i (pcr0References t i acm km bpm) bpm b =
        .ok part) (hx : .tpmExtend pcr source a ∈ part) : ∃ x, source = .fixed x ∧ IsPcr0Data a x := by
    have hpart := pcr0Actions_eq_ok hactions
    split at hpart
    · obtain ⟨reason, rfl⟩ := hpart
      cases List.mem_singleton.mp hx
    · obtain ⟨digest, -, rfl⟩ := hpart
      rcases List.mem_pair.mp hx with heq | heq
      · cases heq
        exact ⟨_, rfl, t, i, acm, km, bpm, _, rfl⟩
      · cases heq
  obtain ⟨reason, rfl⟩ | ⟨i, t, acm, km, bpm, one, two, -, -, -, hone, htwo, rfl⟩ := pcr0DataActions_eq_ok h
  · cases List.mem_singleton.mp hx
  · exact (List.mem_append.mp hx).elim (hpart hone) (hpart htwo)

theorem isDataAction_of_mem {s : State} {actions : List Action} (h : pcr0DataActions s = .ok actions) :
    ∀ x ∈ actions, IsDataAction x := by
  obtain ⟨reason, rfl⟩ | ⟨i, t, acm, km, bpm, one, two, -, -, -, hone, htwo, rfl⟩ :=
    pcr0DataActions_eq_ok h
  · intro x hx
    rw [List.mem_singleton.mp hx]
    exact .panic reason
  · intro x hx
    rcases List.mem_append.mp hx with hx | hx
    · exact isDataAction_of_mem_pcr0Actions hone x hx
    · exact isDataAction_of_mem_pcr0Actions htwo x hx

end Step
end MeasuredBoot
