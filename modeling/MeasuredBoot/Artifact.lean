import MeasuredBoot.Firmware.Image
import MeasuredBoot.Register

/-!
# Artifacts

An artifact is a blob that can be read: plain bytes, a firmware image, or a snapshot of registers. Two
artifacts with equal content are still two, so each carries a number; references to artifacts of one
number are references to the same blob.
-/
namespace MeasuredBoot

/-- What can be read. -/
inductive Blob where
  | raw (name : String) (content : ByteArray)
  | image (i : BiosImage)
  | txtPublic (t : TxtPublic)
  | amdRegisters (a : AmdRegisters)

namespace Blob

/-- The name of plain bytes that were given none. -/
def plainName : String := "raw"

/-- The name of the kind of blob. -/
def kindName : Blob → String
  | raw .. => "RawArtifact"
  | image _ => Part.biosImage.kindName
  | txtPublic _ => Part.txtPublic.kindName
  | amdRegisters _ => Part.amdRegisters.kindName

def size : Blob → Int
  | raw _ c => c.size
  | image i => i.content.size
  | txtPublic _ => Register.txtSize
  | amdRegisters a => a.size

/-- Kind, name and size of bytes and images; kind and names of registers. -/
def text : Blob → String
  | raw name c => "RawArtifact(" ++ name ++ ", size=0x" ++ Text.hex c.size ++ ")"
  | image i => "BIOSImage(BIOSImage, size=0x" ++ Text.hex i.content.size ++ ")"
  | txtPublic t => Register.textOf Part.txtPublic.kindName t.registers
  | amdRegisters a => Register.textOf Part.amdRegisters.kindName a.registers

/-- Reads bytes of a content whose first address is zero. -/
def readContent (name : String) (c : ByteArray) (offset length : Int) : Except Fault Bytes :=
  if offset < 0 ∨ length < 0 ∨ (c.size : Int) < offset + length then
    .error (.read (.outOfBounds name offset length c.size))
  else .ok (c.extract offset.toNat (offset + length).toNat).data.toList

/-- Reads `length` bytes from `offset` on. -/
def read : Blob → (offset length : Int) → Except Fault Bytes
  | raw name c, offset, length => readContent name c offset length
  | image i, offset, length => readContent Part.biosImage.kindName i.content offset length
  | txtPublic t, offset, length => t.read offset length
  | amdRegisters a, offset, length => a.read offset length

/-- The registers of a snapshot; other blobs have none. -/
def registers : Blob → List Register
  | txtPublic t => t.registers
  | amdRegisters a => a.registers
  | _ => []

end Blob

/-- A blob with the number that tells it from others. -/
structure Artifact where
  number : Nat
  blob : Blob

end MeasuredBoot
