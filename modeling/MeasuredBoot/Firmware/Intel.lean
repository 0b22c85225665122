import MeasuredBoot.ByteRange
import MeasuredBoot.Bytes
import MeasuredBoot.Hash.Algorithm

/-!
# Boot Guard metadata

The firmware interface table of an image and the structures it points to: the authenticated code module,
the key manifest and the boot policy manifest. All addresses are physical, as the table stores them.
-/
namespace MeasuredBoot

/-- An entry of the firmware interface table. -/
structure FitEntry where
  type : Int
  address : Int
  size : Int

namespace FitEntry

def startupAcm : Int := 0x02
def keyManifest : Int := 0x0B
def bootPolicyManifest : Int := 0x0C

/-- The names of the types, each with its number. -/
def typeNames : List (Int × String) := [
  (0x00, "FIT_HEADER"), (0x01, "MICROCODE"), (0x02, "STARTUP_ACM"), (0x07, "BIOS_STARTUP_MODULE"),
  (0x08, "TPM_POLICY"), (0x09, "BIOS_POLICY"), (0x0A, "TXT_POLICY"), (0x0B, "KEY_MANIFEST"),
  (0x0C, "BOOT_POLICY_MANIFEST"), (0x10, "CSE_SECURE_BOOT")]

/-- The name of a type, or its number with at least two digits. -/
def typeName (type : Int) : String := (typeNames.lookup type).getD ("0x" ++ Text.paddedHex 2 type)

def range (e : FitEntry) : ByteRange := ⟨e.address, e.size⟩

end FitEntry

/-- A digest of the initial boot block, stored in the boot policy. -/
structure IbbDigest where
  algorithm : Algorithm
  address : Int
  digest : Bytes

def IbbDigest.range (d : IbbDigest) : ByteRange := ⟨d.address, d.digest.length⟩

/-- A part of a structure, by offset from its address. -/
structure Field where
  offset : Int
  length : Int

/-- The place of a field in a structure at the given address. -/
def Field.at (f : Field) (address : Int) : ByteRange := ⟨address + f.offset, f.length⟩

/-- The authenticated code module. -/
structure CodeModule where
  address : Int
  securityVersion : Field
  signature : Field
  valid : Bool

namespace CodeModule

def versionRange (m : CodeModule) : ByteRange := m.securityVersion.at m.address

def signatureRange (m : CodeModule) : ByteRange := m.signature.at m.address

end CodeModule

/-- The key manifest. -/
structure KeyManifest where
  address : Int
  signature : Field
  valid : Bool

def KeyManifest.signatureRange (m : KeyManifest) : ByteRange := m.signature.at m.address

/-- The boot policy manifest, with the ranges and digests of the initial boot block. -/
structure BootPolicy where
  address : Int
  signature : Field
  ibbRanges : ByteRanges
  ibbDigests : List IbbDigest
  valid : Bool
  ibbValid : Bool

namespace BootPolicy

def signatureRange (m : BootPolicy) : ByteRange := m.signature.at m.address

def ibbDigest? (m : BootPolicy) (a : Algorithm) : Option IbbDigest :=
  m.ibbDigests.find? (·.algorithm = a)

end BootPolicy

/-- The table and the structures found through it. -/
structure IntelFirmware where
  fit : List FitEntry
  codeModule : Option CodeModule
  keyManifest : Option KeyManifest
  bootPolicy : Option BootPolicy

/-- The first table entry of a type. -/
def IntelFirmware.fitFirst? (f : IntelFirmware) (type : Int) : Option FitEntry :=
  f.fit.find? (·.type = type)

end MeasuredBoot
