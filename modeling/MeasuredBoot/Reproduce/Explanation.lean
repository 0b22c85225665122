import MeasuredBoot.EventLog.EventData
import MeasuredBoot.State

/-!
# Explaining a reported event

The data of a reported event often name the measured bytes: physical ranges of the image, or the GUID of
a volume. An explanation hashes what the data name and, failing that, the data themselves, and lists the
nodes of the firmware which the named bytes touch.
-/
namespace MeasuredBoot

/-- What could be found out about an event. -/
structure Explanation where
  event : ReportedEvent
  parsed : Option EventData := none
  /-- A measurement with the digest of the event. -/
  measurement : Option Evidence := none
  guesses : List Bytes := []
  nodes : List Node := []

namespace Explanation

def details (x : Explanation) : List String :=
  let measured := x.measurement.toList.map fun m =>
    "reproduced the digest using measurement: " ++ m.data.text
  let ranges := (x.parsed.toList.filter fun d => !d.ranges.isEmpty).map fun d =>
    "mentioned byte ranges: " ++ ByteRanges.text d.ranges
  let volumes := (x.parsed.toList.filter fun d => !d.volumes.isEmpty).map fun d =>
    "mentioned UUIDs: " ++ Source.guidsText d.volumes
  let nodes :=
    if x.nodes.isEmpty then []
    else ["related UEFI nodes: " ++ ", ".intercalate (x.nodes.map Node.name)]
  let guesses := x.guesses.map fun g => "digest guessed from Data field: " ++ g.toHexUpper
  measured ++ ranges ++ volumes ++ nodes ++ guesses

def text (x : Explanation) : String :=
  if x.details.isEmpty then "<unable to get any info; event: " ++ x.event.text ++ ">"
  else "; ".intercalate x.details

def document (x : Explanation) : Text.Json := .object [
  ("str", .str x.text),
  ("parsed", .ofOption EventData.document x.parsed),
  ("measurement", .ofText? (x.measurement.map (Evidence.text Evidence.measuredKind))),
  ("guesses", .ofTexts (x.guesses.map Bytes.toHex)),
  ("nodes", .ofTexts (x.nodes.map Node.name))]

/-- Evidence that a TPM would hold for data which have the digest of an event. -/
def conjecture (s : State) (d : Data) : Evidence :=
  ⟨d, if s.tpm.isSome then some .tpm else none, some .unknown, .fixed d, none⟩

/-- What trying references gave: their digest, and the measurement if the digest is that of the event. -/
structure Trial where
  measurement : Option Evidence := none
  digest : Option Bytes := none

/-- True of a fault with which a guess is dropped: the named bytes cannot be read. -/
def isUnreadable : Fault → Bool
  | .read _ | .mapping _ => true
  | _ => false

/-- Hashes references with the algorithm of the event's digest. -/
def tryReferences (s : State) (e : ReportedEvent) (rs : References) : Journal.Run Trial := do
  let d ← attempt (e.givenDigest "hash_algo")
  let data := Data.referenced rs (some d.algorithm)
  match data.converted with
  | .ok digest =>
    return { measurement := if digest = d.value then some (conjecture s data) else none
             digest := some digest }
  | .error f =>
    if !isUnreadable f then throw f
    Journal.note .debug ("[pcrbruteforcer] unable to read the guessed measurement " ++ data.text ++ ": "
      ++ f.message)
    return {}

/-- References to the ranges that have a length; tells of each that has none. -/
def rangeReferences (i : BiosImage) : ByteRanges → Journal.Run References
  | [] => return []
  | r :: rest => do
    if r.length = 0 then
      Journal.note .debug ("[pcrbruteforcer] skipping the empty range " ++ r.text)
      rangeReferences i rest
    else return ⟨State.imageArtifact i, some .physical, [r]⟩ :: (← rangeReferences i rest)

/-- The data of an event, as an artifact. -/
def eventArtifact (data : Bytes) : Artifact :=
  ⟨State.freeNumber, .raw "EventData" ⟨data.toArray⟩⟩

/-- Tries the data of the event themselves; their digest is reported only if it is that of the event. -/
def guessData (s : State) (x : Explanation) : Journal.Run Explanation := do
  let data := x.event.data
  if data.isEmpty then return x
  let t ← tryReferences s x.event [⟨eventArtifact data, none, [⟨0, data.length⟩]⟩]
  match t.measurement with
  | some m => return { x with measurement := some m, guesses := x.guesses ++ t.digest.toList }
  | none => return x

/-- Tries the ranges which the data name, and then the data themselves. -/
def guess (s : State) (i : BiosImage) (x : Explanation) : Journal.Run Explanation := do
  let ranges := (x.parsed.map EventData.ranges).getD []
  if ranges.isEmpty then guessData s x
  else
    let t ← tryReferences s x.event (← rangeReferences i ranges)
    let x := { x with guesses := x.guesses ++ t.digest.toList }
    match t.measurement with
    | some m => return { x with measurement := some m }
    | none => guessData s x

def measuredRanges (x : Explanation) : Except Fault ByteRanges := do
  let rs := (x.measurement.map fun m => m.data.references).getD []
  let own := rs.filter fun r => r.artifact.number = State.imageNumber
  return (← own.mapM Reference.resolvedRanges).flatten

/-- The offsets of the named ranges; tells if one is not mapped, and then there are none. -/
def namedRanges (i : BiosImage) (d : EventData) : Journal.Run ByteRanges := do
  match AddressMap.physical.resolve (.image i) (d.ranges.filter fun r => r.length ≠ 0) with
  | .ok rs => return rs
  | .error f =>
    Journal.note .debug ("[pcrbruteforcer] " ++ f.message)
    return []

/-- The places of the nodes with a GUID. -/
def volumeRanges (i : BiosImage) (g : Guid) : ByteRanges :=
  ((i.withGuid g).filter fun n => n.size ≠ 0).map Node.range

/-- The nodes around ranges, each node once. -/
def nodesAround (i : BiosImage) (ranges : ByteRanges) : List Node :=
  let found := ranges.flatMap i.positionsContaining
  (found.foldl (fun kept x => if kept.any (·.1 = x.1) then kept else kept ++ [x]) []).map Prod.snd

/-- Adds the nodes which the explanation touches. -/
def relate (i : BiosImage) (x : Explanation) : Journal.Run Explanation := do
  let measured ← attempt x.measuredRanges
  let named ← match x.parsed with
    | none => pure []
    | some d => (· ++ d.volumes.flatMap (volumeRanges i)) <$> namedRanges i d
  return { x with nodes := nodesAround i (ByteRanges.normalize (measured ++ named)) }

/-- Adds what is recognised in the data of the event; tells why nothing is. -/
def readData (i : BiosImage) (e : ReportedEvent) : Journal.Run Explanation := do
  try
    return { event := e, parsed := some (← EventData.parse e i.content.size) }
  catch f =>
    Journal.note .debug ("[pcrbruteforcer] " ++ f.message)
    return { event := e }

/-- Explains an event; without an image there is nothing to find out. -/
def ofEvent (s : State) (e : ReportedEvent) : Journal.Run Explanation := do
  match s.biosImage with
  | none => return { event := e }
  | some i => relate i (← guess s i (← readData i e))

end Explanation
end MeasuredBoot
