import MeasuredBoot.Artifact

/-!
# Address maps

An address map carries ranges over between some coordinates and the offsets of an artifact. The identity
map changes nothing; the physical map places the BIOS region of an image so that it ends at four
gibibytes.
-/
namespace MeasuredBoot

/-- A way to carry ranges over. -/
inductive AddressMap where
  | identity
  | physical
deriving DecidableEq

namespace AddressMap

/-- The address at which the mapped BIOS region ends. -/
def fourGiB : Int := 0x100000000

def name : AddressMap → String
  | identity => "IdentityMapper"
  | physical => "PhysMemMapper"

/-- The BIOS region of an artifact that is an image. -/
def regionOf : Blob → Except Fault ByteRange
  | .image i => i.biosRegion
  | other => .error (.mapping (.notAnImage other.text))

/-- The address at which a BIOS region begins. -/
def base (region : ByteRange) : Int := fourGiB - region.length

/-- The offset of a physical range in an image with the given BIOS region. -/
def resolveIn (region r : ByteRange) : Except Fault ByteRange :=
  if r.offset < base region ∨ fourGiB < r.stop then
    .error (.mapping (.outsideMapping r (base region)))
  else .ok ⟨region.offset + r.offset - base region, r.length⟩

/-- The physical range of a range of an image with the given BIOS region. -/
def unresolveIn (region r : ByteRange) : Except Fault ByteRange :=
  if region.contains r then .ok ⟨r.offset - region.offset + base region, r.length⟩
  else .error (.mapping (.outsideRegion r region))

/-- From the coordinates of the map to offsets of the blob. -/
def resolve (m : AddressMap) (b : Blob) (rs : ByteRanges) : Except Fault ByteRanges :=
  match m with
  | identity => .ok rs
  | physical => do
    let region ← regionOf b
    rs.mapM (resolveIn region)

/-- From offsets of the blob to the coordinates of the map. -/
def unresolve (m : AddressMap) (b : Blob) (rs : ByteRanges) : Except Fault ByteRanges :=
  match m with
  | identity => .ok rs
  | physical => do
    let region ← regionOf b
    rs.mapM (unresolveIn region)

end AddressMap
end MeasuredBoot
