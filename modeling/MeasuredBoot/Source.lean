import MeasuredBoot.Data

/-!
# Data sources

A data source describes where data come from: fixed values, places in the firmware image, or registers.
It is only a description; what it yields depends on the state in which it is resolved.
-/
namespace MeasuredBoot

/-- Where data come from. -/
inductive Source where
  | fixed (d : Data)
  | concat (parts : List Source)
  | merged (s : Source)
  | memory (ranges : ByteRanges)
  | firmwareVariable (name : String)
  | filesOfType (types : List Int)
  | filesOfName (names : List String)
  | executables
  | firstGuid (guids : List Guid)
  | volumeOf (s : Source)
  | fitFirst (type : Int)
  | initialBootBlock
  | acmPolicyStatus
  | pspDirectory
  | biosDirectory
  | embeddedFirmware
  | directoryEntries (level : Int) (types : List Int)
  | pspVersion
  | messageRegisters

namespace Source

def bytes (b : Bytes) : Source := fixed (.literal b)

/-- The volume that holds the DXE phase. -/
def dxeVolume : Guid := ⟨0x5C60F367A505419A859E2A4FF6CA6FE5⟩

/-- The volume that holds the DXE phase in compressed form. -/
def dxeContainer : Guid := ⟨0x4F1C52D3D8244D2AA2F0EC40C23C5916⟩

/-- The variable with the version of the firmware vendor. -/
def vendorVersion : String := "FirmwareVendorVersion"

def guidsText (guids : List Guid) : String := ", ".intercalate (guids.map Guid.text)

/-- First and last address, eight digits each at least, for memory ranges. -/
def memoryText (r : ByteRange) : String :=
  Text.paddedHex 8 r.offset ++ ":" ++ Text.paddedHex 8 (r.stop - 1)

def typesText (types : List Int) : String :=
  ", ".intercalate (types.map fun t => "0x" ++ Text.paddedHex 2 t)

mutual

def text : Source → String
  | fixed d => "StaticData(" ++ d.text ++ ")"
  | concat parts => "Concat(" ++ ", ".intercalate (texts parts) ++ ")"
  | merged s => "SortAndMerge(" ++ text s ++ ")"
  | memory ranges => "MemRanges(" ++ ",".intercalate (ranges.map memoryText) ++ ")"
  | firmwareVariable name => "PCDVariable(\"" ++ name ++ "\")"
  | filesOfType types => "UEFIFiles(" ++ typesText types ++ ")"
  | filesOfName names => "UEFIFiles(" ++ ", ".intercalate names ++ ")"
  | executables => "UEFIFiles(executable)"
  | firstGuid guids => "UEFIGUIDFirst(" ++ guidsText guids ++ ")"
  | volumeOf s => "VolumeOf(" ++ text s ++ ")"
  | fitFirst type => "IntelFITFirst(" ++ FitEntry.typeName type ++ ")"
  | initialBootBlock => "IBB()"
  | acmPolicyStatus => "ACMPolicyStatus()"
  | pspDirectory => "AMD_PSP_Directory"
  | biosDirectory => "AMD_BIOS_Directory"
  | embeddedFirmware => "EmbeddedFirmware()"
  | directoryEntries level types =>
    "BIOSDirectoryEntries(L: " ++ Text.decimal level ++ ", T: [" ++ typesText types ++ "])"
  | pspVersion => "PSPVersion()"
  | messageRegisters => "RegistersMP0C2PMsg()"

def texts : List Source → List String
  | [] => []
  | s :: rest => text s :: texts rest

end

/-- The sources that are described by their name alone. -/
def simple : List Source :=
  [initialBootBlock, acmPolicyStatus, embeddedFirmware, pspVersion, messageRegisters]

/-- The source that is described by a name alone. -/
def ofName? (s : String) : Option Source := simple.find? (·.text = s ++ "()")

end Source
end MeasuredBoot
