import MeasuredBoot.State

/-!
# Conditions

A condition holds of a state or not, and testing it changes nothing. A condition about a part which the
state lacks does not hold.

Two conditions recognise a firmware by the magic value of its version, which is found in the executable
section of a module with a known GUID.
-/
namespace MeasuredBoot

/-- A firmware known by the version which one of its modules holds. -/
structure VendorVersion where
  module : Guid
  version : Bytes
  /-- Whether the section may be the node with the GUID itself. -/
  includesModule : Bool

namespace VendorVersion

def v0 : VendorVersion where
  module := ⟨0x9B3F28D510A646C8BA72BD40B847A71A⟩
  version := [0x1E, 0xFB, 0x6B, 0x54, 0x0C, 0x1D, 0x55, 0x40, 0xA4, 0xAD, 0x4E, 0xF4, 0xBF, 0x17, 0xB8, 0x3A]
  includesModule := true

def v1 : VendorVersion where
  module := ⟨0x0D8039FF49E94CC9A806BB7C31B0BCB0⟩
  version := [0x05, 0x2B, 0x10, 0xA7, 0xC7, 0xD9, 0x65, 0x41, 0x81, 0x40, 0x2A, 0xDD, 0xE9, 0x4A, 0xF6, 0x3C]
  includesModule := false

/-- The part of the version that is searched for. -/
def magic (v : VendorVersion) : Bytes := v.version.drop 12

/-- The content of the first executable section of the one module with the GUID. -/
def section? (v : VendorVersion) (i : BiosImage) : Option Bytes :=
  match i.withGuid v.module with
  | [n] =>
    let candidates := (if v.includesModule then [n] else []) ++ n.children
    match (Node.walkAll candidates).find? (Node.isSectionOf [Node.pe32Section, Node.teSection]) with
    | some s => ((Blob.image i).read s.range.offset s.size).toOption
    | none => none
  | _ => none

/-- True of an image with the version in its section. -/
def isIn (v : VendorVersion) (i : BiosImage) : Bool :=
  match v.section? i with
  | some content => v.magic.occursIn content
  | none => false

end VendorVersion

/-- A question about a state. -/
inductive Condition where
  | not (c : Condition)
  | fitPresent
  | bootPolicyPresent
  | validCodeModule
  | validKeyManifest
  | validBootPolicy
  | validInitialBootBlock
  | manifestPresent
  | validPspDirectory
  | validBiosDirectory
  | tpmInitialized
  | ocpV0
  | ocpV1
deriving Inhabited

namespace Condition

def text : Condition → String
  | not c => "Not(" ++ c.text ++ ")"
  | fitPresent => "FITPresent()"
  | bootPolicyPresent => "BPMPresent()"
  | validCodeModule => "ValidACM()"
  | validKeyManifest => "ValidKM()"
  | validBootPolicy => "ValidBPM()"
  | validInitialBootBlock => "ValidIBB()"
  | manifestPresent => "ManifestPresent()"
  | validPspDirectory => "ValidPSPDirectory()"
  | validBiosDirectory => "ValidBIOSDirectory()"
  | tpmInitialized => "TPMIsInited()"
  | ocpV0 => "IsOCPv0()"
  | ocpV1 => "IsOCPv1()"

def simple : List Condition := [.fitPresent, .bootPolicyPresent, .validCodeModule, .validKeyManifest,
  .validBootPolicy, .validInitialBootBlock, .manifestPresent, .validPspDirectory, .validBiosDirectory,
  .tpmInitialized, .ocpV0, .ocpV1]

/-- The condition of a name, which stands before the parentheses of its text. -/
def ofName? (s : String) : Option Condition := simple.find? (·.text = s ++ "()")

/-- The Intel metadata of the image, if there are any. -/
def intel? (s : State) : Option IntelFirmware := s.biosImage.bind (·.intel)

/-- The AMD metadata of the image, if there are any. -/
def amd? (s : State) : Option AmdFirmware := s.biosImage.bind (·.amd)

def bootPolicy? (s : State) : Option BootPolicy := (intel? s).bind (·.bootPolicy)

def holds : Condition → State → Bool
  | not c, s => !c.holds s
  | fitPresent, s => (intel? s).any (!·.fit.isEmpty)
  | bootPolicyPresent, s => (bootPolicy? s).isSome
  | validCodeModule, s => ((intel? s).bind (·.codeModule)).any (·.valid)
  | validKeyManifest, s => ((intel? s).bind (·.keyManifest)).any (·.valid)
  | validBootPolicy, s => (bootPolicy? s).any (·.valid)
  | validInitialBootBlock, s => (bootPolicy? s).any (·.ibbValid)
  | manifestPresent, s => (amd? s).isSome
  | validPspDirectory, s => (amd? s).any (·.pspDirectoryValid)
  | validBiosDirectory, s => (amd? s).any (·.biosDirectoryValid)
  | tpmInitialized, s => s.tpm.any (·.isInitialized)
  | ocpV0, s => s.biosImage.any VendorVersion.v0.isIn
  | ocpV1, s => s.biosImage.any VendorVersion.v1.isIn

end Condition
end MeasuredBoot
