import MeasuredBoot.ByteRange
import MeasuredBoot.Guid
import MeasuredBoot.Text.Blank

/-!
# Firmware nodes

The layout of an image is a forest of nodes: volumes, files, sections and modules, each with its place
in the image, perhaps a GUID, and the nodes inside it. The forest is read in pre-order, a node before
the nodes inside it, and a node is told apart from others by its position in that order.
-/
namespace MeasuredBoot

/-- What a node is; files and sections have a type, and a file may have a name. -/
inductive NodeKind where
  | module
  | volume
  | file (type : Int) (name : String)
  | section (type : Int)

/-- A node of the layout with its children. -/
inductive Node where
  | mk (kind : NodeKind) (offset size : Int) (guid : Option Guid) (children : List Node)

instance : Inhabited Node := ⟨.mk .module 0 0 none []⟩

namespace Node

/-- The type of a compressed or plain executable section that holds a PE image. -/
def pe32Section : Int := 0x10

/-- The type of a section with position independent code. -/
def picSection : Int := 0x11

/-- The type of a section that holds a terse executable. -/
def teSection : Int := 0x12

/-- The file types of the PEI core, of a PEI module, and of one combined with a driver. -/
def peiFileTypes : List Int := [0x04, 0x06, 0x08]

def kind : Node → NodeKind
  | mk k _ _ _ _ => k

def size : Node → Int
  | mk _ _ s _ _ => s

def guid : Node → Option Guid
  | mk _ _ _ g _ => g

def children : Node → List Node
  | mk _ _ _ _ cs => cs

/-- The place of the node in the image. -/
def range : Node → ByteRange
  | mk _ o s _ _ => ⟨o, s⟩

def isVolume (n : Node) : Bool :=
  match n.kind with
  | .volume => true
  | _ => false

/-- True of a section of one of the given types. -/
def isSectionOf (types : List Int) (n : Node) : Bool :=
  match n.kind with
  | .section t => types.contains t
  | _ => false

/-- True of a file with an executable section right inside it. -/
def isExecutable (n : Node) : Bool :=
  n.children.any (isSectionOf [pe32Section, picSection, teSection])

mutual

/-- The node and all nodes inside it, in pre-order. -/
def walk : Node → List Node
  | mk k o s g cs => mk k o s g cs :: walkAll cs

/-- The nodes of a forest, in pre-order. -/
def walkAll : List Node → List Node
  | [] => []
  | n :: rest => walk n ++ walkAll rest

end

/-- Kind, GUID and name; a node without a name ends after its GUID. -/
def name (n : Node) : String :=
  let (kindName, ui) :=
    match n.kind with
    | .module => ("EFI_MODULE", "")
    | .volume => ("EFI_FV", "")
    | .file _ ui => ("EFI_FILE", ui)
    | .section _ => ("EFI_SECTION", "")
  let guid := (n.guid.map Guid.text).getD ""
  Text.trimRight (kindName ++ " \x7b" ++ guid ++ "\x7d " ++ ui)

/-- Place, name and size. -/
def text (n : Node) : String :=
  "<+" ++ Text.paddedHex 8 n.range.offset ++ "h " ++ n.name ++ ": Size "
    ++ Text.paddedHex 8 n.size ++ "h>"

end Node
end MeasuredBoot
