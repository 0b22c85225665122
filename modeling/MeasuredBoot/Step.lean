import MeasuredBoot.Condition

/-!
# Steps

A step of a flow looks at the state and produces actions; producing them changes nothing. Most steps
produce new actions each time they are executed. A script is a step that hands out the same actions every
time.
-/
namespace MeasuredBoot

/-- What a verifying step verifies. -/
inductive Subject where
  | codeModule
  | keyManifest
  | bootPolicy
  | initialBootBlock
  | pspDirectory
  | biosDirectory
deriving DecidableEq

namespace Subject

def name : Subject → String
  | codeModule => "VerifyACM"
  | keyManifest => "VerifyKM"
  | bootPolicy => "VerifyBPM"
  | initialBootBlock => "VerifyIBB"
  | pspDirectory => "VerifyPSPDirectory"
  | biosDirectory => "VerifyBIOSDirectory"

def all : List Subject :=
  [.codeModule, .keyManifest, .bootPolicy, .initialBootBlock, .pspDirectory, .biosDirectory]

/-- The subject whose verification has a name. -/
def ofName? (s : String) : Option Subject := all.find? (·.name = s)

def condition : Subject → Condition
  | codeModule => .validCodeModule
  | keyManifest => .validKeyManifest
  | bootPolicy => .validBootPolicy
  | initialBootBlock => .validInitialBootBlock
  | pspDirectory => .validPspDirectory
  | biosDirectory => .validBiosDirectory

def action : Subject → Action
  | codeModule => .verifyByPch (.fitFirst FitEntry.startupAcm)
  | keyManifest => .verifyByPch (.fitFirst FitEntry.keyManifest)
  | bootPolicy => .verifyByPch (.fitFirst FitEntry.bootPolicyManifest)
  | initialBootBlock => .verifyByPch .initialBootBlock
  | pspDirectory => .verifyByPsp .pspDirectory
  | biosDirectory => .verifyByPsp .biosDirectory

end Subject

/-- A measurement by the security processor. -/
inductive PspMeasurement where
  | version
  | messageRegisters
  | embeddedFirmware
  | biosDirectory
  | rtmVolume
  | pmuFirmware
  | microcodePatch
  | videoInterpreter
deriving DecidableEq

namespace PspMeasurement

def name : PspMeasurement → String
  | version => "MeasurePSPVersion"
  | messageRegisters => "MeasureMP0C2PMsgRegisters"
  | embeddedFirmware => "MeasureEmbeddedFirmwareStructure"
  | biosDirectory => "MeasureBIOSDirectory"
  | rtmVolume => "MeasureBIOSRTMVolume"
  | pmuFirmware => "MeasurePMUFirmware"
  | microcodePatch => "MeasureMicrocodePatch"
  | videoInterpreter => "MeasureVideoInterpreter"

def all : List PspMeasurement := [.version, .messageRegisters, .embeddedFirmware, .biosDirectory,
  .rtmVolume, .pmuFirmware, .microcodePatch, .videoInterpreter]

def ofName? (s : String) : Option PspMeasurement := all.find? (·.name = s)

end PspMeasurement

/-- An action of a script, with the number under which it is handed out. -/
structure ScriptedAction where
  number : Nat
  action : Action

/-- A step of a flow. -/
inductive Step where
  | setActor (a : Actor)
  | setFlow (f : FlowRef)
  | panic (reason : String)
  | whenHolds (c : Condition) (s : Step)
  | choose (c : Condition) (s other : Step)
  | initTpm (locality : Int) (logged : Bool)
  | initTpmLazily (locality : Int)
  | measure (pcr : Int) (type : EventType) (source : Source) (description : Option Bytes)
  | verify (subject : Subject) (fallback : FlowRef)
  | measurePcr0Data
  | psp (m : PspMeasurement)
  | broken (message : String)
  | script (actions : List ScriptedAction)

namespace Step

/-! ## Steps with usual arguments -/

/-- Measures four zeros that close a phase. -/
def measureSeparator (pcr : Int) : Step :=
  measure pcr .separator (.bytes (Bytes.zeros 4)) none

/-- Measures a firmware variable as a version. -/
def measureVariable (pcr : Int) (name : String) : Step :=
  measure pcr .crtmVersion (.firmwareVariable name) none

/-- Measures the version of the firmware vendor. -/
def measureVendorVersion (pcr : Int) : Step := measureVariable pcr Source.vendorVersion

/-- Measures the nodes with the first GUID that is present. -/
def measureFirstGuid (pcr : Int) (guids : List Guid) : Step :=
  measure pcr .firmwareBlob2 (.firstGuid guids) none

def measureMemory (pcr : Int) (r : ByteRange) : Step :=
  measure pcr .firmwareBlob2 (.memory [r]) none

/-! ## Text -/

def text : Step → String
  | setActor a => "SetActor(" ++ a.name ++ ")"
  | setFlow f => "SetFlow(" ++ f.name ++ ")"
  | panic reason => "Panic(" ++ Text.quoted reason ++ ")"
  | whenHolds c s => "If(" ++ c.text ++ ", " ++ s.text ++ ")"
  | choose c s other => "If(" ++ c.text ++ ", " ++ s.text ++ ", " ++ other.text ++ ")"
  | initTpm locality logged =>
    "InitTPM(" ++ Text.decimal locality ++ ", with_log=" ++ Text.truth logged ++ ")"
  | initTpmLazily locality => "InitTPMLazy(" ++ Text.decimal locality ++ ")"
  | measure pcr _ source _ => "Measure(" ++ Text.decimal pcr ++ ", " ++ source.text ++ ")"
  | verify subject fallback => subject.name ++ "(" ++ fallback.name ++ ")"
  | measurePcr0Data => "MeasurePCR0DATA()"
  | psp m => m.name ++ "()"
  | broken _ => "Broken()"
  | script _ => "Script()"

/-- True of the step that measures the data of register zero. -/
def isMeasurePcr0Data : Step → Bool
  | measurePcr0Data => true
  | _ => false

end Step
end MeasuredBoot
