import MeasuredBoot.Flow

/-!
# The shipped flows

Sixteen flows model the boot of Intel and AMD machines. The root flow looks for the metadata of either
vendor; the vendor's flow verifies what it can, starts the TPM at locality three if the verification
succeeded and leaves the start at locality zero to the firmware otherwise; the firmware's flows then
measure the firmware, and all of them end in the flow of the DXE phase.
-/
namespace MeasuredBoot.Shipped

def ref (name : String) : FlowRef := ⟨.shipped, name⟩

/-! ## Firmware phases -/

def dxe : Flow := ⟨"OCPDXE", [
  .setActor .pei,
  .initTpmLazily 0,
  .measureVendorVersion 0,
  .measureFirstGuid 0 [Source.dxeVolume, Source.dxeContainer],
  .setActor .dxe,
  .measureSeparator 0]⟩

/-- The base of the first kind of firmware. -/
def v0Base : Int := 0xFF562000

/-- The base of the second kind of firmware on AMD machines. -/
def v1AmdBase : Int := 0xFF7F1000

def peiV0 : Flow := ⟨"OCPPEIv0", [
  .setActor .pei,
  .whenHolds (.not .tpmInitialized) (.initTpm 0 false),
  .measureVendorVersion 0,
  .measureMemory 0 ⟨v0Base + 0xF44, 0x20⟩,
  .measureMemory 0 ⟨v0Base + 0x1044, 0x20⟩,
  .measureSeparator 0,
  .setFlow (ref "OCPDXE")]⟩

def peiV1Amd : Flow := ⟨"OCPPEIv1AMD", [
  .measureMemory 0 ⟨v1AmdBase + 0x1034, 0x20⟩,
  .measureMemory 0 ⟨v1AmdBase + 0x1074, 0x20⟩,
  .measureMemory 0 ⟨v1AmdBase + 0x10B4, 0x20⟩,
  .measureMemory 0 ⟨v1AmdBase + 0x11D4, 0x20⟩,
  .measureSeparator 0,
  .setFlow (ref "OCPDXE")]⟩

/-- The volumes which the second kind of firmware measures one by one. -/
def v1Volume0 : Guid := ⟨0x1638673DEFE6400B951FABAC2CB31C60⟩
def v1Volume1 : Guid := ⟨0x14E428FA1A124875B6378B3CC87FDF07⟩
def v1Volume2 : Guid := ⟨0x013B9639D6D5410FB7A9F9173C56ECDA⟩

def peiV1 : Flow := ⟨"OCPPEIv1", [
  .setActor .pei,
  .whenHolds (.not .tpmInitialized) (.initTpm 0 false),
  .measureVendorVersion 0,
  .whenHolds .manifestPresent (.setFlow (ref "OCPPEIv1AMD")),
  .measureFirstGuid 0 [v1Volume0],
  .measureFirstGuid 0 [v1Volume1],
  .measureFirstGuid 0 [v1Volume2],
  .measureFirstGuid 0 [Source.dxeContainer, Source.dxeVolume],
  .measureSeparator 0,
  .setFlow (ref "OCPDXE")]⟩

/-- Finds out which kind of firmware follows. -/
def detectFirmware : List Step := [
  .setActor .unknown,
  .whenHolds .ocpV0 (.setFlow (ref "OCPPEIv0")),
  .whenHolds .ocpV1 (.setFlow (ref "OCPPEIv1")),
  .panic "unknown flow: is not OCP"]

def pei : Flow := ⟨"PEI", detectFirmware⟩

def intelResetVector : Flow := ⟨"IntelResetVector", detectFirmware⟩

/-! ## Intel -/

def intelFailure : Flow := ⟨"IntelCBnTFailure", [.setFlow (ref "IntelResetVector")]⟩

/-- Leaves the verified boot unless the condition holds. -/
def unlessFail (c : Condition) : Step := .whenHolds (.not c) (.setFlow (ref "IntelCBnTFailure"))

def intelVerified : Flow := ⟨"IntelCBnT", [
  .setActor .pch,
  .verify .codeModule (ref "IntelCBnTFailure"),
  .verify .keyManifest (ref "IntelCBnTFailure"),
  .verify .bootPolicy (ref "IntelCBnTFailure"),
  .verify .initialBootBlock (ref "IntelCBnTFailure"),
  unlessFail .validCodeModule,
  unlessFail .validKeyManifest,
  unlessFail .validBootPolicy,
  unlessFail .validInitialBootBlock,
  .setActor .codeModule,
  .initTpm 3 false,
  .measurePcr0Data,
  .setFlow (ref "IntelResetVector")]⟩

def intelLegacy : Flow := ⟨"IntelLegacyTXT", [.panic "legacy TXT flow is not implemented"]⟩

def intel : Flow := ⟨"Intel", [
  .whenHolds .bootPolicyPresent (.setFlow (ref "IntelCBnT")),
  .setFlow (ref "IntelLegacyTXT")]⟩

/-! ## AMD -/

def amdLocality0 : Flow := ⟨"AMDGenoaLocality0", [
  .whenHolds (.not .tpmInitialized) (.initTpm 0 false),
  .psp .messageRegisters,
  .psp .embeddedFirmware,
  .psp .biosDirectory,
  .psp .pmuFirmware,
  .psp .microcodePatch,
  .psp .videoInterpreter,
  .setFlow (ref "PEI")]⟩

def amdFailure : Flow := ⟨"AMDGenoaVerificationFailure", [.setFlow (ref "AMDGenoaLocality0")]⟩

def amdLocality3 : Flow := ⟨"AMDGenoaLocality3", [
  .setActor .psp,
  .verify .pspDirectory (ref "AMDGenoaVerificationFailure"),
  .initTpm 3 true,
  .psp .version,
  .psp .rtmVolume,
  .setFlow (ref "AMDGenoaLocality0")]⟩

def amdGenoa : Flow := ⟨"AMDGenoa", [
  .setFlow (ref "AMDGenoaLocality3"),
  .panic "this case is not implemented, yet"]⟩

def amd : Flow := ⟨"AMD", [.setFlow (ref "AMDGenoa")]⟩

/-! ## Root -/

def root : Flow := ⟨"Root", [
  .whenHolds .fitPresent (.setFlow (ref "Intel")),
  .whenHolds .manifestPresent (.setFlow (ref "AMD")),
  .panic "unknown flow: neither AMD nor Intel"]⟩

def flows : List Flow := [
  root,
  intelFailure, intelVerified, intelLegacy, intel,
  amdLocality0, amdFailure, amdLocality3, amdGenoa, amd,
  dxe, peiV0, peiV1Amd, peiV1, pei, intelResetVector]

def registry : FlowRegistry := ⟨flows⟩

end MeasuredBoot.Shipped
