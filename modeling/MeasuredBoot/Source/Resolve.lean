import MeasuredBoot.Condition

/-!
# Resolving data sources

A source resolves in a state to data: literal bytes, or references to the artifacts of the state. Places
in the image are referred to by physical address. Sources that combine others accept references only, and
only without a hash.
-/
namespace MeasuredBoot.Source

/-- A reference to offsets of the image, in physical addresses. -/
def imageReference (i : BiosImage) (ranges : ByteRanges) : Except Fault Reference := do
  let physical ← AddressMap.physical.unresolve (.image i) ranges
  return ⟨State.imageArtifact i, some .physical, physical⟩

/-- Data of one reference to offsets of the image. -/
def imageData (i : BiosImage) (ranges : ByteRanges) : Except Fault Data := do
  return .referenced [← imageReference i ranges] none

/-- Data of one reference to physical addresses. -/
def physicalData (i : BiosImage) (ranges : ByteRanges) : Data :=
  .referenced [⟨State.imageArtifact i, some .physical, ranges⟩] none

/-- The references of data that a combining source accepts. -/
def composable (name : String) (d : Data) : Except Fault References :=
  match d with
  | .literal _ => .error (.source (.literalIn name))
  | .referenced _ (some _) => .error (.source (.convertedIn name))
  | .referenced rs none => .ok rs

/-- The ranges of some nodes, normalised; no data at all if there are none. -/
def nodesData (i : BiosImage) (ranges : ByteRanges) : Except Fault Data :=
  if ranges.normalize.isEmpty then .ok .empty else imageData i ranges.normalize

def files (i : BiosImage) (keep : (type : Int) → (name : String) → Node → Bool) : List Node :=
  i.walk.filter fun n =>
    match n.kind with
    | .file type name => keep type name n
    | _ => false

/-- The innermost volume that contains a range. -/
def volumeOfRange (i : BiosImage) (r : ByteRange) : Except Fault ByteRange :=
  match (i.nodesContaining r).find? Node.isVolume with
  | some n => .ok n.range
  | none => .error (.source (.noVolumeOf r))

/-- The volumes that contain the ranges of a reference to the image. -/
def volumesOfReference (i : BiosImage) (r : Reference) : Except Fault ByteRanges := do
  if r.artifact.number ≠ State.imageNumber then throw (.source (.foreignReference r.text))
  (← r.resolvedRanges).mapM (volumeOfRange i)

/-- The value of a firmware variable, known by the kind of firmware. -/
def variableData (s : State) (name : String) : Except Fault Data :=
  if name ≠ vendorVersion then .error (.source (.unknownVariable name))
  else if Condition.ocpV0.holds s then .ok (.literal VendorVersion.v0.version)
  else if Condition.ocpV1.holds s then .ok (.literal VendorVersion.v1.version)
  else .error (.source .noVariableParser)

/-- The image together with its Intel metadata. -/
def intelImage (s : State) : Except Fault (BiosImage × IntelFirmware) := do
  let i ← s.image
  match i.intel with
  | some f => return (i, f)
  | none => throw (.source .noFit)

/-- The image together with its AMD metadata. -/
def amdImage (s : State) : Except Fault (BiosImage × AmdFirmware) := do
  let i ← s.image
  match i.amd with
  | some f => return (i, f)
  | none => throw (.source .noPspFirmware)

/-- The one policy status register of the public space. -/
def policyStatusData (s : State) : Except Fault Data := do
  let t ← s.txt
  match (t.registers.filter fun r => r.name = Register.acmPolicyStatusName).length with
  | 0 => throw (.source .noPolicyStatus)
  | 1 => return .referenced [⟨State.txtArtifact t, none, [Register.acmPolicyStatusRange]⟩] none
  | n => throw (.source (.severalPolicyStatus n))

/-- The message registers that are present, each once. -/
def messageRegistersData (s : State) : Except Fault Data := do
  let a ← s.registers
  let ranges := [Register.messageName37, Register.messageName38].filterMap fun name => do
    let offset ← a.offsetOf? name
    let r ← Register.find? a.registers name
    return ByteRange.mk offset r.size
  if ranges.isEmpty then throw (.source .noMessageRegisters)
  return .referenced [⟨State.registersArtifact a, none, ranges⟩] none

/-- The nodes with the first GUID that any node has. -/
def firstGuidData (i : BiosImage) (guids : List Guid) : Except Fault Data :=
  match guids.find? fun g => !(i.withGuid g).isEmpty with
  | some g => imageData i ((i.withGuid g).map Node.range)
  | none => .error (.source (.noVolumes (guidsText guids)))

mutual

/-- The data of a source in a state. -/
def resolve (s : State) : Source → Except Fault Data
  | fixed d => .ok d
  | concat parts => do
    return .referenced (← resolveAll s parts) none
  | merged inner => do
    let d ← resolve s inner
    let rs ← composable "SortAndMerge" d
    return .referenced rs.merge none
  | memory ranges => do
    let i ← s.image
    let _ ← AddressMap.physical.resolve (.image i) ranges
    return physicalData i ranges
  | firmwareVariable name => variableData s name
  | filesOfType types => do
    let i ← s.image
    nodesData i ((files i fun type _ _ => types.contains type).map Node.range)
  | filesOfName names => do
    let i ← s.image
    nodesData i ((files i fun _ name _ => names.contains name).map Node.range)
  | executables => do
    let i ← s.image
    nodesData i ((files i fun _ _ n => n.isExecutable).map Node.range)
  | firstGuid guids => do
    let i ← s.image
    firstGuidData i guids
  | volumeOf inner => do
    let i ← s.image
    let d ← resolve s inner
    let rs ← composable "VolumeOf" d
    let volumes ← rs.mapM (volumesOfReference i)
    nodesData i volumes.flatten
  | fitFirst type => do
    let (i, f) ← intelImage s
    match f.fitFirst? type with
    | some e => return physicalData i [e.range]
    | none => throw (.source (.noFitEntry (FitEntry.typeName type)))
  | initialBootBlock => do
    let (i, f) ← intelImage s
    match f.bootPolicy with
    | some m => return physicalData i m.ibbRanges
    | none => throw (.source .noBootPolicy)
  | acmPolicyStatus => policyStatusData s
  | pspDirectory => do
    let (i, f) ← amdImage s
    imageData i f.pspDirectories
  | biosDirectory => do
    let (i, f) ← amdImage s
    imageData i (f.biosDirectories.flatMap BiosDirectory.parts)
  | embeddedFirmware => do
    let (i, f) ← amdImage s
    match f.embeddedFirmware with
    | some r => imageData i [r]
    | none => throw (.source .noEmbeddedFirmware)
  | directoryEntries level types => do
    let (i, f) ← amdImage s
    imageData i ((f.entriesOf level types).map DirectoryEntry.range)
  | pspVersion => do
    let (i, f) ← amdImage s
    match f.pspVersion with
    | some r => imageData i [r]
    | none => throw (.source .noPspVersion)
  | messageRegisters => messageRegistersData s

/-- The references of several sources, one after another. -/
def resolveAll (s : State) : List Source → Except Fault References
  | [] => .ok []
  | part :: rest => do
    let d ← resolve s part
    let rs ← composable "Concat" d
    return rs ++ (← resolveAll s rest)

end

end MeasuredBoot.Source
