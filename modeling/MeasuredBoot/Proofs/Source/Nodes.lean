import MeasuredBoot.Proofs.Reference.Canonical
import MeasuredBoot.Proofs.Reference.Covering
import MeasuredBoot.Proofs.Reference.Mapping
import MeasuredBoot.Source.Resolve

/-!
# Nodes of the layout as data

A node belongs to a forest if it is one of its roots or lies somewhere below one, and these are the nodes which the
walk lists. The places of nodes are joined and referred to by physical address. If every byte of them lies in the
BIOS region, the joined ranges do too, though an empty node may lie anywhere; the references then exist, and resolve
to exactly the bytes of the nodes.
-/
namespace MeasuredBoot

namespace Node
variable {n m : Node} {ns : List Node}

@[simp] theorem length_range (n : Node) : n.range.length = n.size := by
  cases n
  rfl

inductive Within : List Node → Node → Prop where
  | root {ns : List Node} {n : Node} (h : n ∈ ns) : Within ns n
  | inside {ns : List Node} {m n : Node} (hm : m ∈ ns) (h : Within m.children n) : Within ns n

theorem not_within_nil (n : Node) : ¬ Within [] n := by
  rintro (h | ⟨hm, -⟩)
  · exact List.not_mem_nil h
  · exact List.not_mem_nil hm

theorem within_cons : Within (m :: ns) n ↔ (n = m ∨ Within m.children n) ∨ Within ns n := by
  constructor
  · rintro (h | ⟨hm, h⟩)
    · rcases List.mem_cons.mp h with rfl | h
      · exact Or.inl (Or.inl rfl)
      · exact Or.inr (.root h)
    · rcases List.mem_cons.mp hm with rfl | hm
      · exact Or.inl (Or.inr h)
      · exact Or.inr (.inside hm h)
  · rintro ((rfl | h) | (h | ⟨hm, h⟩))
    · exact .root (by simp)
    · exact .inside (by simp) h
    · exact .root (by simp [h])
    · exact .inside (by simp [hm]) h

mutual

theorem mem_walk_iff : ∀ m : Node, n ∈ m.walk ↔ n = m ∨ Within m.children n
  | .mk k o s g cs => by
      rw [walk, List.mem_cons, mem_walkAll_iff cs]
      rfl

theorem mem_walkAll_iff : ∀ ns : List Node, n ∈ walkAll ns ↔ Within ns n
  | [] => iff_of_false List.not_mem_nil (not_within_nil n)
  | m :: rest => by
      rw [walkAll, List.mem_append, mem_walk_iff m, mem_walkAll_iff rest, within_cons]

end

/-- A file with code: an executable section lies right inside it. -/
structure HasCode (n : Node) : Prop where
  file : ∃ type name, n.kind = .file type name
  code : ∃ c ∈ n.children, ∃ t ∈ [pe32Section, picSection, teSection], c.kind = .section t

theorem isSectionOf_iff {types : List Int} :
    isSectionOf types n = true ↔ ∃ t ∈ types, n.kind = .section t := by
  rw [isSectionOf]
  split
  · rename_i t hkind
    simp [hkind]
  · rename_i hkind
    refine iff_of_false Bool.false_ne_true ?_
    rintro ⟨t, -, h⟩
    exact hkind t h

theorem isExecutable_iff : n.isExecutable = true ↔
    ∃ c ∈ n.children, ∃ t ∈ [pe32Section, picSection, teSection], c.kind = .section t := by
  simp only [isExecutable, List.any_eq_true, isSectionOf_iff]

end Node

namespace BiosImage
variable {i : BiosImage} {n : Node} {a : Int}

/-- A file with code somewhere in the layout of the image. -/
def HasExecutable (i : BiosImage) (n : Node) : Prop := Node.Within i.nodes n ∧ n.HasCode

/-- Every byte of some ranges lies in the BIOS region; for ranges without a byte, no region is needed. -/
def Maps (i : BiosImage) (rs : ByteRanges) : Prop :=
  ∀ a, ByteRanges.Covers rs a → ∃ region, i.biosRegion = .ok region ∧ a ∈ region

theorem mem_files_isExecutable :
    n ∈ Source.files i (fun _ _ n => n.isExecutable) ↔ i.HasExecutable n := by
  rw [Source.files, List.mem_filter, walk, Node.mem_walkAll_iff]
  refine and_congr_right fun _ => ?_
  split
  · rename_i type name hkind
    rw [Node.isExecutable_iff]
    exact ⟨fun h => ⟨⟨type, name, hkind⟩, h⟩, Node.HasCode.code⟩
  · rename_i hkind
    refine iff_of_false Bool.false_ne_true ?_
    rintro ⟨⟨type, name, h⟩, -⟩
    exact hkind type name h

theorem contains_of_maps {rs : ByteRanges} {region : ByteRange} (hpositive : ByteRanges.Positive rs)
    (hmaps : i.Maps rs) (hregion : i.biosRegion = .ok region) : ∀ r ∈ rs, region.contains r = true := by
  refine hpositive.forall_contains_iff.mpr fun a ha => ?_
  obtain ⟨region', hregion', hin⟩ := hmaps a ha
  cases hregion.symm.trans hregion'
  exact hin

end BiosImage

namespace Source
variable {i : BiosImage} {rs : ByteRanges}

/-- What data refers to, once it is resolved: some bytes of the image, and nothing else. -/
def Yields (i : BiosImage) (d : Data) (Byte : Int → Prop) : Prop :=
  ∃ out, d.references.resolve = .ok out ∧ References.Offsets out ∧
    ∀ x a, References.Covers out x a ↔ (State.imageArtifact i).Same x ∧ Byte a

/-- References to physical places resolve to the ranges that were mapped there. -/
theorem imageData_yields {region : ByteRange} (hregion : i.biosRegion = .ok region)
    (hpositive : ByteRanges.Positive rs) (hmaps : i.Maps rs) :
    ∃ d, imageData i rs = .ok d ∧ Yields i d (ByteRanges.Covers rs) := by
  have hof : AddressMap.regionOf (.image i) = .ok region := hregion
  obtain ⟨ps, hps⟩ := (AddressMap.exists_unresolve_iff hof).mpr
    (BiosImage.contains_of_maps hpositive hmaps hregion)
  have hback : AddressMap.physical.resolve (.image i) ps = .ok rs := AddressMap.unresolve_eq_ok_comm.mp hps
  refine ⟨.referenced [⟨State.imageArtifact i, some .physical, ps⟩] none, ?_,
    [⟨State.imageArtifact i, none, rs⟩], References.resolve_singleton hback, ⟨by simp, ?_⟩, fun x a => ?_⟩
  · rw [imageData, imageReference, hps]
    rfl
  · intro r hr
    rw [List.mem_singleton.mp hr]
    exact hpositive.sized
  · simp [References.Covers]

theorem nodesData_yields (hsized : ByteRanges.Sized rs) (hmaps : i.Maps rs) :
    ∃ d, nodesData i rs = .ok d ∧ Yields i d (ByteRanges.Covers rs) := by
  have hpositive := ByteRanges.positive_normalize hsized
  have hcovers := ByteRanges.covers_normalize hsized
  rw [nodesData]
  split
  · rename_i hempty
    have hnone := hpositive.eq_nil_iff.mp (List.isEmpty_iff.mp hempty)
    refine ⟨.empty, rfl, [], rfl, ⟨by simp, by simp⟩, fun x a => iff_of_false ?_ ?_⟩
    · simp [References.Covers]
    · exact fun h => hnone a ((hcovers a).mpr h.2)
  · rename_i hne
    -- Only here a region is needed, and the first byte of the first joined range shows that there is one.
    obtain ⟨r, hr⟩ := List.exists_mem_of_ne_nil rs.normalize fun h => hne (List.isEmpty_iff.mpr h)
    have hmapped : i.Maps rs.normalize := fun a ha => hmaps a ((hcovers a).mp ha)
    obtain ⟨region, hregion, -⟩ := hmapped _ (hpositive.covers_offset hr)
    obtain ⟨d, hd, out, hout, hoffsets, hiff⟩ := imageData_yields hregion hpositive hmapped
    exact ⟨d, hd, out, hout, hoffsets, fun x a => by rw [hiff x a, hcovers a]⟩

theorem executables_yields {s : State} (himage : s.biosImage = some i)
    (hsized : ∀ n, i.HasExecutable n → 0 ≤ n.size)
    (hmaps : ∀ n, i.HasExecutable n → i.Maps [n.range]) :
    ∃ d, executables.resolve s = .ok d ∧ Yields i d fun a => ∃ n, i.HasExecutable n ∧ a ∈ n.range := by
  have hcovers : ∀ a, ByteRanges.Covers ((files i fun _ _ n => n.isExecutable).map Node.range) a ↔
      ∃ n, i.HasExecutable n ∧ a ∈ n.range := by
    intro a
    simp only [ByteRanges.Covers, List.mem_map, exists_exists_and_eq_and, BiosImage.mem_files_isExecutable]
  have hranges : ByteRanges.Sized ((files i fun _ _ n => n.isExecutable).map Node.range) := by
    intro r hr
    obtain ⟨n, hn, rfl⟩ := List.mem_map.mp hr
    rw [Node.length_range]
    exact hsized n (BiosImage.mem_files_isExecutable.mp hn)
  have hregions : i.Maps ((files i fun _ _ n => n.isExecutable).map Node.range) := by
    intro a ha
    obtain ⟨n, hn, hin⟩ := (hcovers a).mp ha
    exact hmaps n hn a ⟨n.range, by simp, hin⟩
  obtain ⟨d, hd, out, hout, hoffsets, hiff⟩ := nodesData_yields hranges hregions
  refine ⟨d, ?_, out, hout, hoffsets, fun x a => by rw [hiff x a, hcovers a]⟩
  rw [resolve, State.image, himage]
  exact hd

end Source
end MeasuredBoot
