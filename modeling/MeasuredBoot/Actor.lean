import MeasuredBoot.Source

/-!
# Actors

An actor is the code that runs during a part of the boot. Some actors are part of the firmware image, and
then there is a source for their code; the others are hardware or unknown.
-/
namespace MeasuredBoot

/-- Who runs. -/
inductive Actor where
  | generic
  | unknown
  | pch
  | psp
  | codeModule
  | pei
  | dxe
deriving DecidableEq

namespace Actor

def name : Actor → String
  | generic => "Actor"
  | unknown => "Unknown"
  | pch => "PCH"
  | psp => "PSP"
  | codeModule => "IntelACM"
  | pei => "PEI"
  | dxe => "OCPDXE"

def all : List Actor := [.generic, .unknown, .pch, .psp, .codeModule, .pei, .dxe]

def ofName? (s : String) : Option Actor := all.find? (·.name = s)

/-- The name of the file with the PEI core. -/
def peiCoreName : String := "PeiCore"

/-- Where the actor's code comes from, if it is part of the image. -/
def code? : Actor → Option Source
  | codeModule => some (.fitFirst FitEntry.startupAcm)
  | pei => some (.merged (.concat [
      .filesOfType Node.peiFileTypes, .volumeOf (.filesOfName [peiCoreName])]))
  | dxe => some (.firstGuid [Source.dxeVolume, Source.dxeContainer])
  | _ => none

end Actor
end MeasuredBoot
