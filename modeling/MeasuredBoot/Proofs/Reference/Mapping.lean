import MeasuredBoot.Proofs.Reference.Ranges
import MeasuredBoot.Proofs.Runs
import MeasuredBoot.Reference

/-!
# There and back through the physical map

The BIOS region of an image is mapped to a window of the same length that ends at four gibibytes. A range of the
image has a physical place exactly if it lies in the region, and a physical range has an offset exactly if it lies
in the window; the two directions undo each other on whole lists. So a reference through the map reads what a
reference to the offsets reads, or fails as that one does.
-/
namespace MeasuredBoot

namespace BiosImage
variable {i : BiosImage} {region : ByteRange}

/-- An image without declared regions, or with one BIOS region among them. -/
def HasBiosRegion (i : BiosImage) : Prop :=
  ∀ declared, i.regions = some declared → declared.countP (fun d => Text.lower d.1 = "bios") = 1

/-- Then the image has a BIOS region, and only then. -/
theorem exists_biosRegion_iff : (∃ region, i.biosRegion = .ok region) ↔ i.HasBiosRegion := by
  rw [HasBiosRegion, biosRegion]
  cases hregions : i.regions with
  | none => exact iff_of_true ⟨_, rfl⟩ (fun _ hnone => nomatch hnone)
  | some declared =>
      simp only [Option.some.injEq, forall_eq', List.countP_eq_length_filter]
      split
      · rename_i hfound
        rw [hfound]
        exact iff_of_true ⟨_, rfl⟩ rfl
      · rename_i hnot
        refine iff_of_false ?_ fun hone => ?_
        · rintro ⟨region, ⟨⟩⟩
        · obtain ⟨d, hd⟩ := List.length_eq_one_iff.mp hone
          exact hnot _ _ hd

end BiosImage

theorem References.resolve_singleton {r : Reference} {rs : ByteRanges} (h : r.resolvedRanges = .ok rs) :
    References.resolve [r] = .ok [⟨r.artifact, none, rs⟩] := by
  rw [References.resolve, List.mapM_cons, Reference.resolve, h]
  rfl

namespace AddressMap
variable {b : Blob} {i : BiosImage} {region r p : ByteRange} {rs ps : ByteRanges}

def window (region : ByteRange) : ByteRange := ⟨base region, region.length⟩

theorem stop_window (region : ByteRange) : (window region).stop = fourGiB := by
  simp only [window, ByteRange.stop, base]
  omega

theorem unresolveIn_eq_ok_iff : unresolveIn region r = .ok p ↔
    region.contains r = true ∧ p = ⟨r.offset - region.offset + base region, r.length⟩ := by
  rw [unresolveIn]
  split
  · rename_i hin
    rw [and_iff_right hin, Except.ok.injEq, eq_comm]
  · rename_i hout
    exact iff_of_false (fun h => nomatch h) fun h => hout h.1

theorem resolveIn_eq_ok_iff : resolveIn region p = .ok r ↔
    (window region).contains p = true ∧ r = ⟨region.offset + p.offset - base region, p.length⟩ := by
  rw [ByteRange.contains_iff, stop_window, resolveIn]
  split
  · rename_i hout
    refine iff_of_false (fun h => nomatch h) fun h => ?_
    have hin : base region ≤ p.offset := h.1.1
    have hend : p.stop ≤ fourGiB := h.1.2
    omega
  · rename_i hin
    obtain ⟨hfirst, hlast⟩ := not_or.mp hin
    rw [and_iff_right ⟨Int.not_lt.mp hfirst, Int.not_lt.mp hlast⟩, Except.ok.injEq, eq_comm]

/-- A range and its physical place lie in the region and in the window together. -/
theorem unresolveIn_eq_ok_comm : unresolveIn region r = .ok p ↔ resolveIn region p = .ok r := by
  rw [unresolveIn_eq_ok_iff, resolveIn_eq_ok_iff, ByteRange.contains_iff, ByteRange.contains_iff, stop_window]
  obtain ⟨offset, length⟩ := r
  obtain ⟨address, size⟩ := p
  simp only [ByteRange.mk.injEq, window, ByteRange.stop, base]
  omega

theorem physical_unresolve (h : regionOf b = .ok region) (rs : ByteRanges) :
    physical.unresolve b rs = rs.mapM (unresolveIn region) := by
  rw [unresolve, h, ok_bind]

theorem physical_resolve (h : regionOf b = .ok region) (ps : ByteRanges) :
    physical.resolve b ps = ps.mapM (resolveIn region) := by
  rw [resolve, h, ok_bind]

theorem exists_unresolve_iff (h : regionOf b = .ok region) :
    (∃ ps, physical.unresolve b rs = .ok ps) ↔ ∀ r ∈ rs, region.contains r = true := by
  rw [physical_unresolve h, exists_mapM_ok_iff]
  simp only [unresolveIn_eq_ok_iff, exists_and_left, exists_eq, and_true]

theorem exists_resolve_iff (h : regionOf b = .ok region) :
    (∃ rs, physical.resolve b ps = .ok rs) ↔ ∀ p ∈ ps, (window region).contains p = true := by
  rw [physical_resolve h, exists_mapM_ok_iff]
  simp only [resolveIn_eq_ok_iff, exists_and_left, exists_eq, and_true]

/-- The two directions of the map undo each other. -/
theorem unresolve_eq_ok_comm : physical.unresolve b rs = .ok ps ↔ physical.resolve b ps = .ok rs := by
  cases hregion : regionOf b with
  | error f =>
      rw [unresolve, resolve, hregion]
      exact iff_of_false (fun h => nomatch h) (fun h => nomatch h)
  | ok region =>
      rw [physical_unresolve hregion, physical_resolve hregion]
      exact mapM_eq_ok_comm fun r p => unresolveIn_eq_ok_comm

/-- A reference through the map to where some offsets are mapped is as good as one to the offsets. -/
theorem read_of_unresolve {x : Artifact} (h : physical.unresolve x.blob rs = .ok ps) :
    (⟨x, some .physical, ps⟩ : Reference).read = (⟨x, none, rs⟩ : Reference).read := by
  have hresolved : (⟨x, some .physical, ps⟩ : Reference).resolvedRanges = .ok rs :=
    unresolve_eq_ok_comm.mp h
  rw [Reference.read, Reference.read, hresolved]
  rfl

/-- An image with one BIOS region, or without declared regions, has a region and a window: ranges are mapped
exactly if they lie in the region, and mapped back exactly if they lie in the window; each way gives back the list
that the other one was given, and a reference through the map has the outcome of a reference to the offsets. -/
theorem physical_round_trip (h : i.HasBiosRegion) : ∃ region, i.biosRegion = .ok region ∧
    ∀ rs ps : ByteRanges,
      ((∃ ps, physical.unresolve (.image i) rs = .ok ps) ↔ ∀ r ∈ rs, region.contains r = true) ∧
      ((∃ rs, physical.resolve (.image i) ps = .ok rs) ↔
        ∀ p ∈ ps, (window region).contains p = true) ∧
      (physical.unresolve (.image i) rs = .ok ps → physical.resolve (.image i) ps = .ok rs) ∧
      (physical.resolve (.image i) ps = .ok rs → physical.unresolve (.image i) rs = .ok ps) ∧
      (physical.unresolve (.image i) rs = .ok ps → ∀ n : Nat,
        (⟨⟨n, .image i⟩, some .physical, ps⟩ : Reference).read =
          (⟨⟨n, .image i⟩, none, rs⟩ : Reference).read) := by
  obtain ⟨region, hregion⟩ := BiosImage.exists_biosRegion_iff.mpr h
  have hof : regionOf (.image i) = .ok region := hregion
  refine ⟨region, hregion, fun rs ps => ⟨exists_unresolve_iff hof, exists_resolve_iff hof, ?_, ?_, ?_⟩⟩
  · exact unresolve_eq_ok_comm.mp
  · exact unresolve_eq_ok_comm.mpr
  · exact fun hps n => read_of_unresolve (x := ⟨n, .image i⟩) hps

def sampleImage : BiosImage :=
  ⟨ByteArray.mk #[0, 1, 2, 3, 4, 5, 6, 7], some [("Bios", ⟨4, 4⟩)], [], none, none⟩

/-- The last byte of the image is the last one below four gibibytes; the byte before the region is not mapped. -/
theorem physical_round_trip_sample : sampleImage.HasBiosRegion ∧
    physical.unresolve (.image sampleImage) [⟨7, 1⟩, ⟨8, 0⟩] = .ok [⟨0xFFFFFFFF, 1⟩, ⟨0x100000000, 0⟩] ∧
    physical.resolve (.image sampleImage) [⟨0xFFFFFFFF, 1⟩, ⟨0x100000000, 0⟩] = .ok [⟨7, 1⟩, ⟨8, 0⟩] ∧
    (⟨⟨0, .image sampleImage⟩, some .physical, [⟨0xFFFFFFFF, 1⟩, ⟨0x100000000, 0⟩]⟩ : Reference).read =
      (⟨⟨0, .image sampleImage⟩, none, [⟨7, 1⟩, ⟨8, 0⟩]⟩ : Reference).read ∧
    ¬ ∃ ps, physical.unresolve (.image sampleImage) [⟨3, 1⟩] = .ok ps := by
  have hhas : sampleImage.HasBiosRegion := by
    rintro declared ⟨⟩
    decide +kernel
  obtain ⟨region, hregion, hround⟩ := physical_round_trip hhas
  have hplace : region = ⟨4, 4⟩ := by
    have hdeclared : sampleImage.biosRegion = .ok ⟨4, 4⟩ := by rfl
    rw [hdeclared] at hregion
    cases hregion
    rfl
  have hunresolve : physical.unresolve (.image sampleImage) [⟨7, 1⟩, ⟨8, 0⟩] =
      .ok [⟨0xFFFFFFFF, 1⟩, ⟨0x100000000, 0⟩] := by rfl
  obtain ⟨-, -, hback, -, hread⟩ := hround [⟨7, 1⟩, ⟨8, 0⟩] [⟨0xFFFFFFFF, 1⟩, ⟨0x100000000, 0⟩]
  refine ⟨hhas, hunresolve, hback hunresolve, hread hunresolve 0, fun hmapped => ?_⟩
  have hcontained := (hround [⟨3, 1⟩] []).1.mp hmapped ⟨3, 1⟩ (by simp)
  rw [hplace] at hcontained
  exact absurd hcontained (by decide)

end AddressMap
end MeasuredBoot
