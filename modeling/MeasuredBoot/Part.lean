/-!
# Parts of a machine

The parts that a machine may have, at most one of each: blobs that can be read, and parts that act or
hold evidence.
-/
namespace MeasuredBoot

/-- The parts of a machine that a state may hold, one of each. -/
inductive Part where
  | biosImage
  | txtPublic
  | amdRegisters
  | tpm
  | pch
  | psp
deriving DecidableEq

namespace Part

def kindName : Part → String
  | biosImage => "BIOSImage"
  | txtPublic => "TXTPublic"
  | amdRegisters => "AMDRegisters"
  | tpm => "TPM"
  | pch => "PCH"
  | psp => "PSP"

def key : Part → String
  | biosImage => "bios_image"
  | txtPublic => "txt_public"
  | amdRegisters => "amd_registers"
  | tpm => "tpm"
  | pch => "pch"
  | psp => "psp"

def all : List Part := [.biosImage, .txtPublic, .amdRegisters, .tpm, .pch, .psp]

def ofKey? (s : String) : Option Part := all.find? (·.key = s)

/-- Images and registers are blobs that can be read; the other parts act. -/
def isArtifact : Part → Bool
  | biosImage | txtPublic | amdRegisters => true
  | _ => false

end Part

end MeasuredBoot
