import MeasuredBoot.Proofs.Reference.Exclusion
import MeasuredBoot.Proofs.Source.Nodes

/-!
# The nodes around a range

In a nested forest every node has a size, lies inside its parent, and shares no address with its siblings. The nodes
around a range that has an address then form one path from a root downwards, since only one of several siblings can
hold the address at which the range begins. The walk meets a path from the outside inwards, so turned round it lists
the innermost node first, and the first volume on it is the smallest one around the range.

A source is lifted to the volumes around its ranges. If one of the ranges lies in no volume, there is no data; if all
do, the data refers to exactly the bytes of the smallest volumes around them.
-/
namespace MeasuredBoot

namespace Node
variable {m n : Node} {ns : List Node} {r : ByteRange}

theorem walkAll_cons (m : Node) (ns : List Node) :
    walkAll (m :: ns) = m :: (walkAll m.children ++ walkAll ns) := by
  cases m
  rfl

def Apart (m n : Node) : Prop := ∀ a ∈ m.range, a ∉ n.range

theorem apart_iff : Apart m n ↔ m.range.stop ≤ n.range.offset ∨ n.range.stop ≤ m.range.offset ∨
    m.range.length ≤ 0 ∨ n.range.length ≤ 0 := by
  simp only [Apart, ByteRange.mem_iff, ByteRange.stop]
  constructor
  · intro h
    have hfirst := h (max m.range.offset n.range.offset)
    omega
  · intro h a ha hin
    omega

instance (m n : Node) : Decidable (Apart m n) := decidable_of_iff _ apart_iff.symm

/-- A forest of nodes with a size, each inside its parent and apart from its siblings. -/
structure Nested (ns : List Node) : Prop where
  positive : ∀ n, Within ns n → 0 < n.size
  inside : ∀ n, Within ns n → ∀ c ∈ n.children, n.range.contains c.range = true
  roots : ns.Pairwise Apart
  siblings : ∀ n, Within ns n → n.children.Pairwise Apart

theorem nested_iff : Nested ns ↔ ns.Pairwise Apart ∧ ∀ n ∈ walkAll ns,
    0 < n.size ∧ (∀ c ∈ n.children, n.range.contains c.range = true) ∧ n.children.Pairwise Apart := by
  simp only [mem_walkAll_iff]
  constructor
  · exact fun h => ⟨h.roots, fun n hn => ⟨h.positive n hn, h.inside n hn, h.siblings n hn⟩⟩
  · rintro ⟨hroots, hall⟩
    exact ⟨fun n hn => (hall n hn).1, fun n hn => (hall n hn).2.1, hroots, fun n hn => (hall n hn).2.2⟩

instance (ns : List Node) : Decidable (Nested ns) := decidable_of_iff _ nested_iff.symm

theorem Within.trans (h : Within ns m) (h' : Within m.children n) : Within ns n := by
  induction h with
  | root hm => exact .inside hm h'
  | inside hm _ ih => exact .inside hm (ih h')

theorem Within.sizeOf_lt (h : Within ns n) : sizeOf n < sizeOf ns := by
  induction h with
  | root hn => exact List.sizeOf_lt_of_mem hn
  | @inside ns m n hm _ ih =>
      have hlist := List.sizeOf_lt_of_mem hm
      cases m
      simp only [children, mk.sizeOf_spec] at ih hlist
      omega

/-- No node lies below itself. -/
theorem not_within_children (n : Node) : ¬ Within n.children n := by
  intro h
  have hlt := h.sizeOf_lt
  cases n
  simp only [children, mk.sizeOf_spec] at hlt
  omega

theorem isVolume_iff : n.isVolume = true ↔ n.kind = .volume := by
  rw [isVolume]
  split <;> simp_all

namespace Nested

theorem children (h : Nested ns) (hm : Within ns m) : Nested m.children where
  positive n hn := h.positive n (hm.trans hn)
  inside n hn := h.inside n (hm.trans hn)
  roots := h.siblings m hm
  siblings n hn := h.siblings n (hm.trans hn)

theorem tail (h : Nested (m :: ns)) : Nested ns where
  positive n hn := h.positive n (within_cons.mpr (Or.inr hn))
  inside n hn := h.inside n (within_cons.mpr (Or.inr hn))
  roots := (List.pairwise_cons.mp h.roots).2
  siblings n hn := h.siblings n (within_cons.mpr (Or.inr hn))

theorem exists_root (h : Nested ns) (hn : Within ns n) : ∃ m ∈ ns, m.range.contains n.range = true := by
  induction hn with
  | root hn => exact ⟨_, hn, ByteRange.contains_self _⟩
  | @inside ns m n hm _ ih =>
      obtain ⟨c, hc, hin⟩ := ih (h.children (.root hm))
      exact ⟨m, hm, ByteRange.contains_trans (h.inside m (.root hm) c hc) hin⟩

theorem contains_below (h : Nested ns) (hm : Within ns m) (hn : Within m.children n) :
    m.range.contains n.range = true := by
  obtain ⟨c, hc, hin⟩ := (h.children hm).exists_root hn
  exact ByteRange.contains_trans (h.inside m hm c hc) hin

end Nested

/-- The nodes of a forest around a range, the outer ones before the inner ones. -/
def around (r : ByteRange) (ns : List Node) : List Node := (walkAll ns).filter fun n => n.range.contains r

theorem mem_around : n ∈ around r ns ↔ Within ns n ∧ n.range.contains r = true := by
  rw [around, List.mem_filter, mem_walkAll_iff]

theorem around_cons (m : Node) (ns : List Node) : around r (m :: ns) =
    (if m.range.contains r then [m] else []) ++ around r m.children ++ around r ns := by
  rw [around, walkAll_cons, List.filter_cons, List.filter_append]
  split <;> rfl

theorem around_eq_nil (h : ∀ n, Within ns n → ¬ n.range.contains r = true) : around r ns = [] := by
  refine List.eq_nil_iff_forall_not_mem.mpr fun n hn => ?_
  obtain ⟨hwithin, hin⟩ := mem_around.mp hn
  exact h n hwithin hin

namespace Nested

/-- Beside a root around a range with an address, no other root has a node around it. -/
theorem around_siblings (h : Nested (m :: ns)) (hr : 0 < r.length) (hm : m.range.contains r = true) :
    around r ns = [] := by
  refine around_eq_nil fun n hn hin => ?_
  obtain ⟨root, hroot, hcontains⟩ := h.tail.exists_root hn
  have hapart := (List.pairwise_cons.mp h.roots).1 root hroot
  have hfirst : ∀ s : ByteRange, s.contains r = true → r.offset ∈ s := fun s hs => by
    rw [ByteRange.contains_iff] at hs
    simp only [ByteRange.mem_iff, ByteRange.stop] at *
    omega
  exact hapart r.offset (hfirst _ hm) (hfirst _ (ByteRange.contains_trans hcontains hin))

/-- The nodes around a range form a path: each of them lies below all that come before it. -/
theorem path_around (hr : 0 < r.length) : ∀ ns : List Node, Nested ns →
    (around r ns).Pairwise fun outer inner => Within outer.children inner
  | [], _ => List.Pairwise.nil
  | .mk k o s g cs :: ns, h => by
      have hroot : Within (.mk k o s g cs :: ns) (.mk k o s g cs) := .root (by simp)
      have hbelow := path_around hr cs (h.children hroot)
      rw [around_cons]
      split
      · rename_i hm
        rw [h.around_siblings hr hm, List.append_nil, List.singleton_append]
        exact List.pairwise_cons.mpr ⟨fun n hn => (mem_around.mp hn).1, hbelow⟩
      · rename_i hm
        have hnone : around r cs = [] := around_eq_nil fun n hn hin =>
          hm (ByteRange.contains_trans (h.contains_below hroot hn) hin)
        rw [Node.children, hnone]
        exact path_around hr ns h.tail

end Nested
end Node

namespace BiosImage
variable {i : BiosImage} {r : ByteRange} {v w n : Node}

theorem positionsContaining_eq (i : BiosImage) (r : ByteRange) :
    i.positionsContaining r = ((i.walk.zipIdx.filter fun p => p.1.range.contains r).map Prod.swap).reverse := by
  rw [positionsContaining, ← List.filterMap_eq_map, List.filterMap_filter]
  refine congrArg List.reverse (List.filterMap_congr fun p _ => ?_)
  obtain ⟨n, k⟩ := p
  rfl

theorem nodesContaining_eq (i : BiosImage) (r : ByteRange) :
    i.nodesContaining r = (Node.around r i.nodes).reverse := by
  have hnodes : (i.walk.zipIdx.filter fun p => p.1.range.contains r).map Prod.fst =
      i.walk.filter fun n => n.range.contains r := by
    conv_rhs => rw [← List.zipIdx_map_fst 0 i.walk, List.filter_map]
    rfl
  rw [nodesContaining, positionsContaining_eq, List.map_reverse, List.map_map]
  exact congrArg List.reverse hnodes

/-- The nodes around a range with an address are listed once each, a node before the ones that it lies in. -/
theorem nodesContaining_path (h : Node.Nested i.nodes) (hr : 0 < r.length) :
    (∀ n, n ∈ i.nodesContaining r ↔ Node.Within i.nodes n ∧ n.range.contains r = true) ∧
    (i.nodesContaining r).Nodup ∧
    (i.nodesContaining r).Pairwise fun inner outer =>
      Node.Within outer.children inner ∧ outer.range.contains inner.range = true := by
  have hmem : ∀ n, n ∈ i.nodesContaining r ↔ Node.Within i.nodes n ∧ n.range.contains r = true := by
    intro n
    rw [nodesContaining_eq, List.mem_reverse, Node.mem_around]
  have hpath : (i.nodesContaining r).Pairwise fun inner outer => Node.Within outer.children inner := by
    rw [nodesContaining_eq, List.pairwise_reverse]
    exact Node.Nested.path_around hr i.nodes h
  have hdistinct : (i.nodesContaining r).Nodup := by
    refine List.Pairwise.imp (fun {inner outer} hbelow heq => ?_) hpath
    exact Node.not_within_children outer (heq ▸ hbelow)
  refine ⟨hmem, hdistinct, ?_⟩
  exact hpath.imp_of_mem fun _ houter hbelow => ⟨hbelow, h.contains_below ((hmem _).mp houter).1 hbelow⟩

/-- A volume of the layout that contains a range. -/
structure IsVolumeAround (i : BiosImage) (r : ByteRange) (v : Node) : Prop where
  within : Node.Within i.nodes v
  volume : v.kind = .volume
  contains : v.range.contains r = true

/-- A volume around a range that is no larger than any other one around it. -/
structure IsSmallestAround (i : BiosImage) (r : ByteRange) (v : Node) : Prop extends i.IsVolumeAround r v where
  least : ∀ w, i.IsVolumeAround r w → v.size ≤ w.size

theorem isVolumeAround_iff (h : Node.Nested i.nodes) (hr : 0 < r.length) :
    i.IsVolumeAround r v ↔ v ∈ i.nodesContaining r ∧ v.isVolume = true := by
  rw [(nodesContaining_path h hr).1 v, Node.isVolume_iff]
  exact ⟨fun hv => ⟨⟨hv.within, hv.contains⟩, hv.volume⟩, fun hv => ⟨hv.1.1, hv.2, hv.1.2⟩⟩

/-- The first volume around a range lies inside every other one around it. -/
theorem contains_first_volume (h : Node.Nested i.nodes) (hr : 0 < r.length)
    (hfirst : (i.nodesContaining r).find? Node.isVolume = some v) (hw : i.IsVolumeAround r w) :
    w.range.contains v.range = true := by
  obtain ⟨-, before, after, hsplit, hbefore⟩ := List.find?_eq_some_iff_append.mp hfirst
  obtain ⟨hmem, hvolume⟩ := (isVolumeAround_iff h hr).mp hw
  have hpath := (nodesContaining_path h hr).2.2
  rw [hsplit] at hmem hpath
  rcases List.mem_append.mp hmem with hmem | hmem
  · have hnot := hbefore w hmem
    simp [hvolume] at hnot
  · rcases List.mem_cons.mp hmem with rfl | hmem
    · exact ByteRange.contains_self _
    · have hlater := (List.pairwise_append.mp hpath).2.1
      exact ((List.pairwise_cons.mp hlater).1 w hmem).2

/-- A volume around a range that lies inside a smallest one has the place of that one. -/
theorem IsSmallestAround.range_eq (hv : i.IsSmallestAround r v) (hw : i.IsVolumeAround r w)
    (hin : v.range.contains w.range = true) : w.range = v.range := by
  have hle := hv.least w hw
  rw [← Node.length_range, ← Node.length_range] at hle
  rw [ByteRange.contains_iff] at hin
  cases hv' : v.range
  cases hw' : w.range
  simp only [hv', hw', ByteRange.stop, ByteRange.mk.injEq] at *
  omega

end BiosImage

namespace Source
variable {i : BiosImage} {s : State} {source : Source} {r : ByteRange} {rs out : References} {a : Int}

theorem volumeOfRange_of_none (h : Node.Nested i.nodes) (hr : 0 < r.length)
    (hnone : ∀ v, ¬ i.IsVolumeAround r v) : volumeOfRange i r = .error (.source (.noVolumeOf r)) := by
  have hfind : (i.nodesContaining r).find? Node.isVolume = none := by
    refine List.find?_eq_none.mpr fun v hv hvolume => hnone v ?_
    exact (BiosImage.isVolumeAround_iff h hr).mpr ⟨hv, hvolume⟩
  rw [volumeOfRange, hfind]

/-- The volume that is found around a range is a smallest one, and all smallest ones have its place. -/
theorem volumeOfRange_of_volume (h : Node.Nested i.nodes) (hr : 0 < r.length)
    (hsome : ∃ v, i.IsVolumeAround r v) : ∃ v, volumeOfRange i r = .ok v.range ∧
      i.IsSmallestAround r v ∧ ∀ w, i.IsSmallestAround r w → w.range = v.range := by
  obtain ⟨w, hw⟩ := hsome
  obtain ⟨hmem, hvolume⟩ := (BiosImage.isVolumeAround_iff h hr).mp hw
  cases hfirst : (i.nodesContaining r).find? Node.isVolume with
  | none => exact absurd hvolume (List.find?_eq_none.mp hfirst w hmem)
  | some v =>
      have hinside := fun w hw => BiosImage.contains_first_volume (w := w) h hr hfirst hw
      have hv : i.IsVolumeAround r v := (BiosImage.isVolumeAround_iff h hr).mpr
        ⟨List.mem_of_find?_eq_some hfirst, List.find?_some hfirst⟩
      have hsmallest : i.IsSmallestAround r v := by
        refine ⟨hv, fun w hw => ?_⟩
        have hin := ByteRange.contains_iff.mp (hinside w hw)
        rw [← Node.length_range, ← Node.length_range]
        simp only [ByteRange.stop] at hin
        omega
      refine ⟨v, by rw [volumeOfRange, hfirst], hsmallest, fun w hw => ?_⟩
      exact (hw.range_eq hv (hinside w hw.toIsVolumeAround)).symm

/-- A source that resolves, without a hash, to references to the image; these are their offsets. -/
def RefersTo (s : State) (i : BiosImage) (source : Source) (ranges : ByteRanges) : Prop :=
  ∃ rs out, source.resolve s = .ok (.referenced rs none) ∧
    (∀ x ∈ rs, x.artifact = State.imageArtifact i) ∧ References.resolve rs = .ok out ∧ out.ranges = ranges

theorem mapM_volumesOfReference (himage : ∀ x ∈ rs, x.artifact = State.imageArtifact i)
    (hout : rs.resolve = .ok out) :
    List.flatten <$> rs.mapM (volumesOfReference i) = out.ranges.mapM (volumeOfRange i) := by
  induction rs generalizing out with
  | nil =>
      cases hout
      rfl
  | cons x rs ih =>
      obtain ⟨y, rest, hy, hrest, rfl⟩ := mapM_cons_eq_ok_iff.mp hout
      obtain ⟨ranges, hranges, heq⟩ := bind_eq_ok_iff.mp hy
      cases heq
      have hx : volumesOfReference i x = ranges.mapM (volumeOfRange i) := by
        rw [volumesOfReference, himage x (by simp), if_neg (by simp [State.imageArtifact]), hranges]
        rfl
      have htail := ih (fun z hz => himage z (by simp [hz])) hrest
      rw [List.mapM_cons, hx, References.ranges, List.flatMap_cons, List.mapM_append,
        ← References.ranges, ← htail]
      simp only [map_eq_pure_bind, bind_assoc, pure_bind, List.flatten_cons]

theorem volumeOf_resolve {ranges : ByteRanges} (hs : s.biosImage = some i)
    (h : RefersTo s i source ranges) : (volumeOf source).resolve s =
      ranges.mapM (volumeOfRange i) >>= nodesData i := by
  obtain ⟨rs, out, hresolve, himage, hout, rfl⟩ := h
  rw [resolve, State.image, hs, hresolve, ← mapM_volumesOfReference himage hout]
  simp only [State.require, ok_bind, composable, map_eq_pure_bind, bind_assoc, pure_bind]

/-- Every volume of the layout lies in the BIOS region. -/
def VolumesMapped (i : BiosImage) : Prop :=
  ∀ v, Node.Within i.nodes v → v.kind = .volume →
    ∃ region, i.biosRegion = .ok region ∧ region.contains v.range = true

/-- Where all ranges of a source lie in volumes, the source lifted to volumes refers to the smallest ones around
them. -/
theorem volumeOf_yields {ranges : ByteRanges} (h : Node.Nested i.nodes) (hs : s.biosImage = some i)
    (hsource : RefersTo s i source ranges) (hpositive : ByteRanges.Positive ranges) (hmapped : VolumesMapped i)
    (hall : ∀ r ∈ ranges, ∃ v, i.IsVolumeAround r v) :
    ∃ d, (volumeOf source).resolve s = .ok d ∧
      Yields i d fun a => ∃ r ∈ ranges, ∃ v, i.IsSmallestAround r v ∧ a ∈ v.range := by
  have hvolume := fun r hr => volumeOfRange_of_volume h (hpositive r hr) (hall r hr)
  obtain ⟨places, hplaces⟩ : ∃ places, ranges.mapM (volumeOfRange i) = .ok places := by
    refine exists_mapM_of_ok fun r hr => ?_
    obtain ⟨v, hv, -⟩ := hvolume r hr
    exact ⟨v.range, hv⟩
  have hplace : ∀ place ∈ places, ∃ r ∈ ranges, ∃ v, i.IsSmallestAround r v ∧ place = v.range := by
    intro place hmem
    obtain ⟨r, hr, hfound⟩ := exists_of_mem_mapM hplaces hmem
    obtain ⟨v, hv, hsmallest, -⟩ := hvolume r hr
    cases hfound.symm.trans hv
    exact ⟨r, hr, v, hsmallest, rfl⟩
  have hcovers : ∀ a, ByteRanges.Covers places a ↔ ∃ r ∈ ranges, ∃ v, i.IsSmallestAround r v ∧ a ∈ v.range := by
    intro a
    constructor
    · rintro ⟨place, hmem, ha⟩
      obtain ⟨r, hr, v, hv, rfl⟩ := hplace place hmem
      exact ⟨r, hr, v, hv, ha⟩
    · rintro ⟨r, hr, w, hw, ha⟩
      obtain ⟨v, hv, -, hunique⟩ := hvolume r hr
      obtain ⟨place, hmem, hfound⟩ := mem_of_mapM hplaces hr
      cases hfound.symm.trans hv
      exact ⟨v.range, hmem, hunique w hw ▸ ha⟩
  have hsized : ByteRanges.Sized places := by
    intro place hmem
    obtain ⟨r, -, v, hv, rfl⟩ := hplace place hmem
    rw [Node.length_range]
    exact Int.le_of_lt (h.positive v hv.within)
  have hmaps : i.Maps places := by
    intro a ha
    obtain ⟨r, -, v, hv, hin⟩ := (hcovers a).mp ha
    obtain ⟨region, hregion, hcontains⟩ := hmapped v hv.within hv.volume
    rw [ByteRange.contains_iff] at hcontains
    exact ⟨region, hregion, Int.le_trans hcontains.1 hin.1, Int.lt_of_lt_of_le hin.2 hcontains.2⟩
  obtain ⟨d, hd, out, hout, hoffsets, hiff⟩ := nodesData_yields hsized hmaps
  refine ⟨d, ?_, out, hout, hoffsets, fun x a => by rw [hiff x a, hcovers a]⟩
  rw [volumeOf_resolve hs hsource, hplaces]
  exact hd

/-- Where a range of a source lies in no volume, lifting to volumes fails, and only such a range can be named. -/
theorem volumeOf_not_found {ranges : ByteRanges} (h : Node.Nested i.nodes) (hs : s.biosImage = some i)
    (hsource : RefersTo s i source ranges) (hpositive : ByteRanges.Positive ranges)
    (hnone : ∃ r ∈ ranges, ∀ v, ¬ i.IsVolumeAround r v) :
    ∃ r ∈ ranges, (∀ v, ¬ i.IsVolumeAround r v) ∧
      (volumeOf source).resolve s = .error (.source (.noVolumeOf r)) := by
  have hfaults : FaultsWithin
      (fun f => ∃ r ∈ ranges, (∀ v, ¬ i.IsVolumeAround r v) ∧ f = .source (.noVolumeOf r))
      (ranges.mapM (volumeOfRange i)) := by
    refine .mapM fun r hr => ?_
    by_cases hvolume : ∃ v, i.IsVolumeAround r v
    · obtain ⟨v, hv, -⟩ := volumeOfRange_of_volume h (hpositive r hr) hvolume
      rw [hv]
      exact .ok v.range
    · rw [not_exists] at hvolume
      rw [volumeOfRange_of_none h (hpositive r hr) hvolume]
      exact .error ⟨r, hr, hvolume, rfl⟩
  rw [volumeOf_resolve hs hsource]
  cases hplaces : ranges.mapM (volumeOfRange i) with
  | error f =>
      obtain ⟨r, hr, hvolume, rfl⟩ := hfaults f hplaces
      exact ⟨r, hr, hvolume, rfl⟩
  | ok places =>
      obtain ⟨r, hr, hvolume⟩ := hnone
      obtain ⟨place, -, hfound⟩ := mem_of_mapM hplaces hr
      rw [volumeOfRange_of_none h (hpositive r hr) hvolume] at hfound
      cases hfound

/-- In a nested forest, the nodes around a range with an address are listed once each, the innermost first and each
inside all that follow. A source that refers to such ranges of the image is lifted to volumes: that fails, as there is
no source, exactly if one of the ranges lies in no volume, and gives otherwise the bytes of the smallest volumes
around them. -/
theorem volumeOf_lifts {i : BiosImage} (hnested : Node.Nested i.nodes) :
    (∀ r : ByteRange, 0 < r.length →
      (∀ n, n ∈ i.nodesContaining r ↔ Node.Within i.nodes n ∧ n.range.contains r = true) ∧
      (i.nodesContaining r).Nodup ∧
      (i.nodesContaining r).Pairwise fun inner outer =>
        Node.Within outer.children inner ∧ outer.range.contains inner.range = true) ∧
    ∀ (s : State) (source : Source) (ranges : ByteRanges), s.biosImage = some i → VolumesMapped i →
      RefersTo s i source ranges → ByteRanges.Positive ranges →
      ((∃ f, (volumeOf source).resolve s = .error f ∧ f.kind = "SourceNotFound") ↔
        ∃ r ∈ ranges, ∀ v, ¬ i.IsVolumeAround r v) ∧
      ((∀ r ∈ ranges, ∃ v, i.IsVolumeAround r v) →
        ∃ d, (volumeOf source).resolve s = .ok d ∧
          Yields i d fun a => ∃ r ∈ ranges, ∃ v, i.IsSmallestAround r v ∧ a ∈ v.range) := by
  refine ⟨fun r hr => BiosImage.nodesContaining_path hnested hr, fun s source ranges hs hmapped hsource hpos => ?_⟩
  have hyields := volumeOf_yields hnested hs hsource hpos hmapped
  refine ⟨⟨?_, fun hnone => ?_⟩, hyields⟩
  · rintro ⟨f, hf, -⟩
    by_contra hnone
    obtain ⟨d, hd, -⟩ := hyields fun r hr => by
      by_contra hvolume
      exact hnone ⟨r, hr, not_exists.mp hvolume⟩
    cases hf.symm.trans hd
  · obtain ⟨r, -, -, hfault⟩ := volumeOf_not_found hnested hs hsource hpos hnone
    exact ⟨_, hfault, rfl⟩

/-- An image of sixteen bytes: a volume with a file that holds a volume, another volume, and four bytes outside. -/
def nestedVolumes : BiosImage where
  content := ByteArray.mk #[0, 1, 2, 3, 4, 5, 6, 7, 8, 9, 10, 11, 12, 13, 14, 15]
  regions := none
  nodes := [
    .mk .volume 0 8 none [.mk (.file 0x0B "inner") 1 6 none [.mk .volume 2 3 none []]],
    .mk .volume 8 4 none []]
  intel := none
  amd := none

def nestedState : State := { biosImage := some nestedVolumes }

theorem volumesMapped_nestedVolumes : VolumesMapped nestedVolumes := by
  have hall : ∀ v ∈ Node.walkAll nestedVolumes.nodes, (ByteRange.mk 0 16).contains v.range = true := by decide
  exact fun v hv _ => ⟨⟨0, 16⟩, rfl, hall v ((Node.mem_walkAll_iff _).mpr hv)⟩

/-- A byte of the inner volume and two of the other one are lifted to these two; a byte outside has no volume. -/
theorem volumeOf_lifts_sample : Node.Nested nestedVolumes.nodes ∧ VolumesMapped nestedVolumes ∧
    RefersTo nestedState nestedVolumes (.memory [⟨0xFFFFFFF2, 1⟩, ⟨0xFFFFFFF9, 2⟩]) [⟨2, 1⟩, ⟨9, 2⟩] ∧
    RefersTo nestedState nestedVolumes (.memory [⟨0xFFFFFFFD, 1⟩]) [⟨13, 1⟩] ∧
    (∃ d, (volumeOf (.memory [⟨0xFFFFFFF2, 1⟩, ⟨0xFFFFFFF9, 2⟩])).resolve nestedState = .ok d ∧
      Yields nestedVolumes d fun a => ∃ r ∈ [⟨2, 1⟩, ⟨9, 2⟩], ∃ v,
        nestedVolumes.IsSmallestAround r v ∧ a ∈ v.range) ∧
    ∃ f, (volumeOf (.memory [⟨0xFFFFFFFD, 1⟩])).resolve nestedState = .error f ∧
      f.kind = "SourceNotFound" := by
  have hnested : Node.Nested nestedVolumes.nodes := by decide
  have htwo : RefersTo nestedState nestedVolumes (.memory [⟨0xFFFFFFF2, 1⟩, ⟨0xFFFFFFF9, 2⟩])
      [⟨2, 1⟩, ⟨9, 2⟩] := ⟨_, _, rfl, by simp, rfl, rfl⟩
  have hlast : RefersTo nestedState nestedVolumes (.memory [⟨0xFFFFFFFD, 1⟩]) [⟨13, 1⟩] :=
    ⟨_, _, rfl, by simp, rfl, rfl⟩
  have hlift := fun source ranges =>
    (volumeOf_lifts hnested).2 nestedState source ranges rfl volumesMapped_nestedVolumes
  refine ⟨hnested, volumesMapped_nestedVolumes, htwo, hlast, ?_, ?_⟩
  · refine (hlift _ _ htwo (by simp [ByteRanges.Positive])).2 fun r hr => ?_
    rcases List.mem_pair.mp hr with rfl | rfl
    · exact ⟨.mk .volume 2 3 none [], (Node.mem_walkAll_iff _).mp (by simp [nestedVolumes, Node.walkAll, Node.walk]),
        rfl, rfl⟩
    · exact ⟨.mk .volume 8 4 none [], (Node.mem_walkAll_iff _).mp (by simp [nestedVolumes, Node.walkAll, Node.walk]),
        rfl, rfl⟩
  · refine (hlift _ _ hlast (by simp [ByteRanges.Positive])).1.mpr ⟨⟨13, 1⟩, by simp, fun v hv => ?_⟩
    have hnone : ∀ v ∈ Node.walkAll nestedVolumes.nodes, v.range.contains ⟨13, 1⟩ = false := by decide
    have hfalse := hnone v ((Node.mem_walkAll_iff _).mpr hv.within)
    rw [hv.contains] at hfalse
    cases hfalse

end Source
end MeasuredBoot
