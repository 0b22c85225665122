import MeasuredBoot.AddressMap
import MeasuredBoot.EventLog.Reported
import MeasuredBoot.Journal

/-!
# The data of reported events

The data of some events of register zero name what was measured. A startup event holds the locality; the
events about firmware blobs hold a description with its length in front and then physical ranges, each as
two numbers of eight bytes in either order. A description may be the GUID of a volume.
-/
namespace MeasuredBoot

/-- What was recognised in the data of an event. -/
structure EventData where
  ranges : ByteRanges := []
  locality : Option Nat := none
  description : Option String := none
  volumes : List Guid := []

namespace EventData

def document (d : EventData) : Text.Json := .object [
  ("ranges", .ofList (fun r => .ofList .int [r.offset, r.length]) d.ranges),
  ("locality", .ofOption (fun n => .int n) d.locality),
  ("description", .ofText? d.description),
  ("fv_guids", .ofTexts (d.volumes.map Guid.lowerText))]

/-- The text between the brackets of a volume's description, if it has the length of a GUID. -/
def volumeName? (description : String) : Option String :=
  let cs := description.toList
  if cs.length = 40 ∧ "Fv(".toList.isPrefixOf cs ∧ cs.getLast? = some ')' then
    some (String.ofList ((cs.drop 3).take 36))
  else none

/-- The GUID of a description; tells of a description that should have one. -/
def volumesOf (description : String) : Journal.Run (List Guid) := do
  match volumeName? description with
  | none => return []
  | some name =>
    match Guid.parse? name with
    | some g => return [g]
    | none =>
      Journal.note .debug ("[tcg_eventlog] not a GUID in event description: " ++ description)
      return []

/-- True of an address in the mapped part of an image of the given size. -/
def isMapped (size address : Int) : Bool :=
  AddressMap.fourGiB - size ≤ address && address < AddressMap.fourGiB

/-- Two numbers as a range, if the length fits the image and the address is mapped. -/
def asRange? (size : Int) (length address : Nat) : Option ByteRange :=
  if size < length ∨ !isMapped size address then none else some ⟨address, length⟩

/-- The range written as the last sixteen bytes, its length before or after its address. -/
def lastRange? (size : Int) (tail : Bytes) : Option ByteRange :=
  let (x, y) := (Bytes.toNatLE (tail.take 8), Bytes.toNatLE (tail.drop 8))
  (asRange? size x y).or (asRange? size y x)

/-- The ranges at the end of the data, the last one first, and the data before them. -/
def splitRanges (size : Int) (data : Bytes) : ByteRanges × Bytes :=
  if _h : 16 ≤ data.length then
    match lastRange? size (data.drop (data.length - 16)) with
    | none => ([], data)
    | some r =>
      let (more, rest) := splitRanges size (data.take (data.length - 16))
      (r :: more, rest)
  else ([], data)
termination_by data.length
decreasing_by simp only [List.length_take]; omega

/-- A range as two numbers, its length before or after its address. -/
def writeRange (lengthFirst : Bool) (r : ByteRange) : Bytes :=
  let (length, address) := (Bytes.ofNatLE 8 r.length.toNat, Bytes.ofNatLE 8 r.offset.toNat)
  if lengthFirst then length ++ address else address ++ length

/-- The data of an event about firmware blobs: a description after its length, and ranges. -/
def writeBlob (description : Bytes) (ranges : List (Bool × ByteRange)) : Bytes :=
  UInt8.ofNat description.length :: description ++ ranges.flatMap fun (first, r) => writeRange first r

/-- A description that fills the data after its length. -/
def description? : Bytes → Option String
  | [] => none
  | n :: text => if n.toNat = text.length then some (Bytes.toLatin text) else none

/-- The data of an event about firmware blobs. -/
def ofBlob (size : Int) (data : Bytes) : Journal.Run EventData := do
  let (ranges, rest) := splitRanges size data
  match description? rest with
  | none => return { ranges := ranges }
  | some d => return { ranges := ranges, description := some d, volumes := ← volumesOf d }

/-- The data of an event, for an image of the given size. -/
def parse (e : ReportedEvent) (size : Int) : Journal.Run EventData :=
  if e.pcr ≠ 0 then throw (.log (.otherPcr e.pcr))
  else if e.type = .noAction then do
    let x ← attempt (Locality.decode e.data)
    return { locality := some x.toNat }
  else if e.type = .postCode ∨ e.type = .firmwareBlob2 then ofBlob size e.data
  else throw (.log (.otherType e.type.name))

end EventData
end MeasuredBoot
