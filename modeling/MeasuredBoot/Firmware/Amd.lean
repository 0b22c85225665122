import MeasuredBoot.ByteRange

/-!
# Platform security processor metadata

The directories which the security processor reads, as ranges of the image, and the entries of the BIOS
directory. A directory has two levels; level zero stands for both.
-/
namespace MeasuredBoot

/-- An entry of the BIOS directory. -/
structure DirectoryEntry where
  type : Int
  level : Int
  address : Int
  size : Int

namespace DirectoryEntry

def rtmVolume : Int := 0x62
def pmuInstructions : Int := 0x64
def pmuData : Int := 0x65
def microcodePatch : Int := 0x66
def videoInterpreter : Int := 0x69

def range (e : DirectoryEntry) : ByteRange := ⟨e.address, e.size⟩

end DirectoryEntry

/-- One level of the BIOS directory: its place and how much of it is the header. -/
structure BiosDirectory where
  range : ByteRange
  headerSize : Int

def BiosDirectory.parts (d : BiosDirectory) : ByteRanges :=
  [⟨d.range.offset, d.headerSize⟩, ⟨d.range.offset + d.headerSize, d.range.length - d.headerSize⟩]

/-- What the security processor finds in an image. -/
structure AmdFirmware where
  pspDirectories : ByteRanges
  biosDirectories : List BiosDirectory
  embeddedFirmware : Option ByteRange
  entries : List DirectoryEntry
  pspVersion : Option ByteRange
  pspDirectoryValid : Bool
  biosDirectoryValid : Bool

namespace AmdFirmware

/-- The level that stands for all levels. -/
def everyLevel : Int := 0

/-- The entries of a level that have one of the types. -/
def entriesOf (f : AmdFirmware) (level : Int) (types : List Int) : List DirectoryEntry :=
  f.entries.filter fun e => (level = everyLevel || e.level = level) && types.contains e.type

end AmdFirmware
end MeasuredBoot
