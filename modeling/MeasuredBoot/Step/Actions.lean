import MeasuredBoot.EventLog.Locality
import MeasuredBoot.Source.Resolve
import MeasuredBoot.Step

/-!
# The actions of a step

What a step produces in a state. A verifying step records what it verified or switches to its fallback; a
step that measures structures of the image looks them up at once and panics if one is missing; a source
that is measured as a whole is resolved only when its action is applied.
-/
namespace MeasuredBoot.Step

/-! ## Initialisation -/

/-- The event that reports a locality, for one algorithm: its digest is zero. -/
def localityEvent (locality : Int) (a : Algorithm) : Except Fault Action := do
  let size ← digestSize a
  return .logEvent 0 a (Bytes.zeros size) .noAction
    (some (Locality.encode (UInt8.ofNat locality.toNat)))

/-- The events that report a locality, which must fit into a byte. -/
def localityEvents (s : State) (locality : Int) : Except Fault (List Action) := do
  if locality < 0 ∨ 255 < locality then throw (.encoding .localityInEvent)
  ((s.tpm.map Tpm.algorithms).getD Tpm.usualAlgorithms).mapM (localityEvent locality)

/-! ## The data of register zero -/

/-- What the code module measures besides the digest of the initial boot block. -/
def pcr0References (t : TxtPublic) (i : BiosImage) (acm : CodeModule) (km : KeyManifest)
    (bpm : BootPolicy) : References :=
  ⟨State.txtArtifact t, none, [Register.acmPolicyStatusRange]⟩ ::
    [acm.versionRange, acm.signatureRange, km.signatureRange, bpm.signatureRange].map fun r =>
      ⟨State.imageArtifact i, some .physical, [r]⟩

/-- What the description of the measurement begins with. -/
def pcr0Description : String := "PCR0_DATA "

/-- The actions that measure the data for one algorithm. -/
def pcr0Actions (i : BiosImage) (common : References) (bpm : BootPolicy) (a : Algorithm) :
    Except Fault (List Action) :=
  match bpm.ibbDigest? a with
  | none => return [.panic ("No IBBDigest with hash algorithm: " ++ a.name)]
  | some d => do
    let data := Data.referenced
      (common ++ [⟨State.imageArtifact i, some .physical, [d.range]⟩]) (some a)
    let digest ← data.converted
    return [.tpmExtend 0 (.fixed data) a,
      .logEvent 0 a digest .crtmContents (some (Bytes.ofLatin (pcr0Description ++ a.name)))]

/-- The actions that measure the data for both usual algorithms, or a panic if a structure is missing. -/
def pcr0DataActions (s : State) : Except Fault (List Action) :=
  match s.image, s.txt with
  | .error f, _ => return [.panic ("Unable to measure PCR0_DATA: " ++ f.message)]
  | _, .error f => return [.panic ("Unable to measure PCR0_DATA: " ++ f.message)]
  | .ok i, .ok t =>
    let found := do
      let f ← i.intel
      return (← f.codeModule, ← f.keyManifest, ← f.bootPolicy)
    match found with
    | none => return [.panic "Unable to get ACM, KM and BPM of the BIOS image"]
    | some (acm, km, bpm) =>
      if bpm.ibbDigests.isEmpty then return [.panic "IBBDigest list is empty"]
      else do
        let common := pcr0References t i acm km bpm
        return (← [Algorithm.sha1, Algorithm.sha256].mapM (pcr0Actions i common bpm)).flatten

/-! ## Measurements by the security processor -/

/-- One measurement for each range of a source, described by name, reference and range; a panic if the
source does not resolve. -/
def measureEachRange (s : State) (source : Source) (name : String) : Except Fault (List Action) :=
  match source.resolve s with
  | .error f =>
    if f.isUnresolved then
      return [.panic ("Unable to get data from source " ++ source.text ++ ": " ++ f.message)]
    else throw f
  | .ok d =>
    return d.references.zipIdx.flatMap fun (r, i) => r.ranges.zipIdx.map fun (x, j) =>
      .measure 0 (.fixed (.referenced [{ r with ranges := [x] }] none)) .firmwareBlob
        (some (Bytes.ofLatin (name ++ "_" ++ Text.decimal i ++ "_" ++ Text.decimal j)))

/-- One measurement of a whole source with a description. -/
def measureWhole (source : Source) (description : String) : Except Fault (List Action) :=
  return [.measure 0 source .firmwareBlob (some (Bytes.ofLatin description))]

/-- The measurements of the directory entries of a type. -/
def measureEntries (s : State) (type : Int) (name : String) : Except Fault (List Action) :=
  measureEachRange s (.directoryEntries AmdFirmware.everyLevel [type]) name

def pspActions (s : State) : PspMeasurement → Except Fault (List Action)
  | .version => measureWhole .pspVersion "PSP Version"
  | .messageRegisters => measureWhole .messageRegisters "MP0C2PMsg"
  | .embeddedFirmware => measureWhole .embeddedFirmware "EmbeddedFirmware"
  | .biosDirectory => measureEachRange s .biosDirectory "BIOSDirectory"
  | .rtmVolume => measureEntries s DirectoryEntry.rtmVolume "BIOSRTMVolume"
  | .pmuFirmware => do
    let instructions ← measureEntries s DirectoryEntry.pmuInstructions "PMUDataInstructions"
    return instructions ++ (← measureEntries s DirectoryEntry.pmuData "PMUFirmwareData")
  | .microcodePatch => measureEntries s DirectoryEntry.microcodePatch "MicrocodePatch"
  | .videoInterpreter => measureEntries s DirectoryEntry.videoInterpreter "VideoInterpreter"

/-! ## All steps -/

/-- An action that a step produces; one from a script has a number. -/
abbrev Produced := Option Nat × Action

def newly (actions : List Action) : List Produced := actions.map fun a => (none, a)

/-- The actions of a step in a state. -/
def actions (s : State) : Step → Except Fault (List Produced)
  | setActor a => return newly [.setActor a]
  | setFlow f => return newly [.setFlow f]
  | panic reason => return newly [.panic reason]
  | whenHolds c inner => if c.holds s then inner.actions s else return []
  | choose c inner other => if c.holds s then inner.actions s else other.actions s
  | initTpm locality false => return newly [.tpmInit locality]
  | initTpm locality true => do
    return newly (.tpmInit locality :: (← localityEvents s locality))
  | initTpmLazily locality =>
    if Condition.tpmInitialized.holds s then return [] else return newly [.tpmInit locality]
  | measure pcr type source description => return newly [.measure pcr source type description]
  | verify subject fallback =>
    if subject.condition.holds s then return newly [subject.action]
    else return newly [.setFlow fallback]
  | measurePcr0Data => newly <$> pcr0DataActions s
  | psp m => newly <$> pspActions s m
  | broken message => throw (.argument (.refused message))
  | script items => return items.map fun x => (some x.number, x.action)

end MeasuredBoot.Step
