import MeasuredBoot.Text.Radix

/-!
# Ranges of addresses

A range is an offset and a length, both any integers. It covers the addresses from its offset up to,
and not including, its end; a range whose length is not positive covers none. Lists of ranges stand for
the union of what their members cover.
-/
namespace MeasuredBoot

/-- Consecutive addresses. -/
structure ByteRange where
  offset : Int
  length : Int
deriving DecidableEq

namespace ByteRange

def stop (r : ByteRange) : Int := r.offset + r.length

/-- An address belongs to a range from its offset up to its end. -/
instance : Membership Int ByteRange := ⟨fun r a => r.offset ≤ a ∧ a < r.stop⟩

theorem mem_iff {r : ByteRange} {a : Int} : a ∈ r ↔ r.offset ≤ a ∧ a < r.stop := Iff.rfl

/-- True if both ranges have a length and each begins before the other ends. -/
def intersects (r s : ByteRange) : Bool :=
  r.length ≠ 0 && s.length ≠ 0 && r.offset < s.stop && s.offset < r.stop

/-- True if the second range begins and ends inside the first. -/
def contains (r s : ByteRange) : Bool := r.offset ≤ s.offset && s.stop ≤ r.stop

/-- The parts of a range before and after another one. -/
def cutOut (r s : ByteRange) : List ByteRange :=
  if r.intersects s then
    (if r.offset < s.offset then [⟨r.offset, s.offset - r.offset⟩] else [])
      ++ (if s.stop < r.stop then [⟨s.stop, r.stop - s.stop⟩] else [])
  else [r]

/-- The parts of a range outside all the others. -/
def exclude (r : ByteRange) (others : List ByteRange) : List ByteRange :=
  others.foldl (fun parts s => parts.flatMap (·.cutOut s)) [r]

/-- First and last address, in base sixteen. -/
def text (r : ByteRange) : String := "0x" ++ Text.hex r.offset ++ ":0x" ++ Text.hex r.stop

/-- Ranges are ordered by offset, then by length. -/
def precedes (r s : ByteRange) : Bool :=
  r.offset < s.offset || (r.offset == s.offset && r.length ≤ s.length)

end ByteRange

abbrev ByteRanges := List ByteRange

namespace ByteRanges

/-- True of an address which some range covers. -/
def Covers (rs : ByteRanges) (a : Int) : Prop := ∃ r ∈ rs, a ∈ r

/-- Joins each range to the one before it while it begins no later than that one ends. -/
def coalesce (current : ByteRange) : ByteRanges → ByteRanges
  | [] => [current]
  | r :: rest =>
    if r.offset ≤ current.stop then
      coalesce ⟨current.offset, max current.stop r.stop - current.offset⟩ rest
    else current :: coalesce r rest

/-- The ranges in order, without empty ones, and with overlapping and adjacent ones joined. -/
def normalize (rs : ByteRanges) : ByteRanges :=
  match (rs.mergeSort ByteRange.precedes).filter (·.length ≠ 0) with
  | [] => []
  | r :: rest => coalesce r rest

/-- The parts of all the ranges outside all the others. -/
def exclude (rs others : ByteRanges) : ByteRanges := rs.flatMap (·.exclude others)

/-- True if no part of the ranges is outside the others. -/
def isCoveredBy (rs others : ByteRanges) : Bool := (rs.exclude others).isEmpty

def totalLength (rs : ByteRanges) : Int := rs.foldr (fun r n => r.length + n) 0

/-- The texts of the ranges between brackets. -/
def text (rs : ByteRanges) : String := Text.bracketed (rs.map ByteRange.text)

end ByteRanges
end MeasuredBoot
