import MeasuredBoot.Fault
import MeasuredBoot.Firmware.Amd
import MeasuredBoot.Firmware.Intel
import MeasuredBoot.Firmware.Node
import MeasuredBoot.Text.LowerCase

/-!
# Firmware images

An image is the content of the flash together with the layout that was found in it. The BIOS region is
the part which is mapped below four gibibytes; an image without declared regions is all BIOS region.
-/
namespace MeasuredBoot

/-- The content of a flash and its layout. -/
structure BiosImage where
  content : ByteArray
  regions : Option (List (String × ByteRange))
  nodes : List Node
  intel : Option IntelFirmware
  amd : Option AmdFirmware

namespace BiosImage

/-- The image without any content or layout. -/
def empty : BiosImage := ⟨.empty, none, [], none, none⟩

/-- The regions of a list of declarations; of one name, the last declaration counts. -/
def declare (declared : List (String × ByteRange)) : List (String × ByteRange) :=
  declared.foldl (fun known (name, r) =>
    if known.any (·.1 = name) then known.map fun (n, old) => (n, if n = name then r else old)
    else known ++ [(name, r)]) []

/-- The one BIOS region; its name may be in any case. -/
def biosRegion (i : BiosImage) : Except Fault ByteRange :=
  match i.regions with
  | none => .ok ⟨0, i.content.size⟩
  | some regions =>
    match regions.filter fun (name, _) => Text.lower name = "bios" with
    | [(_, r)] => .ok r
    | found => .error (.mapping (.biosRegions found.length))

def walk (i : BiosImage) : List Node := Node.walkAll i.nodes

def withGuid (i : BiosImage) (g : Guid) : List Node := i.walk.filter (·.guid = some g)

/-- The nodes that contain a range, the innermost first, each with its position in pre-order. -/
def positionsContaining (i : BiosImage) (r : ByteRange) : List (Nat × Node) :=
  (i.walk.zipIdx.filterMap fun (n, k) => if n.range.contains r then some (k, n) else none).reverse

/-- The nodes that contain a range, the innermost first. -/
def nodesContaining (i : BiosImage) (r : ByteRange) : List Node :=
  (i.positionsContaining r).map Prod.snd

end BiosImage
end MeasuredBoot
