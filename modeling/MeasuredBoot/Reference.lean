import MeasuredBoot.AddressMap
import MeasuredBoot.Text.Json

/-!
# References

A reference names ranges of an artifact, in the coordinates of an address map or, without a map, as
offsets. Reading it resolves the ranges, normalises them and joins what they cover, so the bytes depend
only on which addresses are covered. References are merged by artifact and map.
-/
namespace MeasuredBoot

/-- Ranges of an artifact. -/
structure Reference where
  artifact : Artifact
  map : Option AddressMap
  ranges : ByteRanges

namespace Reference

/-- The name of the map, empty without one. -/
def mapName (r : Reference) : String := (r.map.map AddressMap.name).getD ""

/-- What references must agree on to be merged: kind and number of the artifact, and the map. -/
def sameTarget (r s : Reference) : Bool :=
  r.artifact.blob.kindName = s.artifact.blob.kindName && r.artifact.number = s.artifact.number
    && r.mapName = s.mapName

/-- References are ordered by kind, map and number of their targets. -/
def precedes (r s : Reference) : Bool :=
  let (k, l) := (r.artifact.blob.kindName, s.artifact.blob.kindName)
  k < l || (k = l && (r.mapName < s.mapName
    || (r.mapName = s.mapName && r.artifact.number ≤ s.artifact.number)))

/-- True of references to the same target with the same ranges. -/
def same (r s : Reference) : Bool := r.sameTarget s && r.ranges = s.ranges

/-- The ranges as offsets of the artifact. -/
def resolvedRanges (r : Reference) : Except Fault ByteRanges :=
  match r.map with
  | none => .ok r.ranges
  | some m => m.resolve r.artifact.blob r.ranges

def resolve (r : Reference) : Except Fault Reference := do
  return { r with map := none, ranges := ← r.resolvedRanges }

def readRange (b : Blob) (r : ByteRange) : Except Fault Bytes := do
  let chunk ← b.read r.offset r.length
  if (chunk.length : Int) ≠ r.length then throw (.read (.short r b.text chunk.length))
  return chunk

/-- The bytes at the covered addresses, in order. -/
def read (r : Reference) : Except Fault Bytes := do
  let ranges ← r.resolvedRanges
  return (← ranges.normalize.mapM (readRange r.artifact.blob)).flatten

def text (r : Reference) : String :=
  "Reference(" ++ r.artifact.blob.text ++ ", "
    ++ (match r.map with
        | none => ""
        | some m => m.name ++ ":")
    ++ r.ranges.text ++ ")"

def document (r : Reference) : Text.Json :=
  .object [
    ("artifact", .str r.artifact.blob.text),
    ("address_mapper", .ofText? (r.map.map AddressMap.name)),
    ("ranges", .list (r.ranges.map fun x => .str x.text))]

end Reference

abbrev References := List Reference

namespace References

/-- The bytes of the references, one after another. -/
def read (rs : References) : Except Fault Bytes := do
  return (← rs.mapM Reference.read).flatten

def resolve (rs : References) : Except Fault References := rs.mapM Reference.resolve

/-- Adds the ranges of a reference to the group of its target, or begins a new group. -/
def addToGroup (r : Reference) : References → References
  | [] => [r]
  | g :: rest =>
    if g.sameTarget r then { g with ranges := g.ranges ++ r.ranges } :: rest
    else g :: addToGroup r rest

/-- One reference for each target, its ranges normalised; targets without a range are left out. -/
def merge (rs : References) : References :=
  let groups := rs.foldl (fun gs r => addToGroup r gs) []
  (groups.mergeSort Reference.precedes).filterMap fun g =>
    let ranges := g.ranges.normalize
    if ranges.isEmpty then none else some { g with ranges := ranges }

/-- The parts of the references outside others of the same target. -/
def exclude (rs others : References) : References :=
  let excluded := others.merge
  rs.merge.filterMap fun r =>
    let ranges :=
      match excluded.find? (·.sameTarget r) with
      | none => r.ranges
      | some o => ByteRanges.exclude r.ranges o.ranges
    if ranges.isEmpty then none else some { r with ranges := ranges }

/-- The ranges of all references, whatever their targets. -/
def ranges (rs : References) : ByteRanges := rs.flatMap Reference.ranges

def text (rs : References) : String := ", ".intercalate (rs.map Reference.text)

end References
end MeasuredBoot
