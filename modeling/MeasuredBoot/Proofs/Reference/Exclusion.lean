import MeasuredBoot.Proofs.Reference.Covering

/-!
# What exclusion leaves

The parts of a range outside others lie inside it, one after another with gaps between them: where a part is split,
what was cut out lies between the halves. So normal ranges stay normal, and merged references from which others were
excluded are merged again. There is one for each artifact and map of which some address is left, and its ranges are
the normal form of what is left.

A range without a length meets no other one, so it is left whatever is excluded. The test whether ranges are covered
asks if nothing is left, and is right exactly as long as no such range decides it.
-/
namespace MeasuredBoot

namespace ByteRanges
variable {rs : ByteRanges}

theorem apart_flatMap {f : ByteRange → ByteRanges} (hinside : ∀ r p, p ∈ f r → r.contains p = true)
    (hparts : ∀ r, (f r).Pairwise fun p q => p.stop < q.offset)
    (h : rs.Pairwise fun r s => r.stop < s.offset) :
    (rs.flatMap f).Pairwise fun p q => p.stop < q.offset := by
  refine List.pairwise_flatMap.mpr ⟨fun r _ => hparts r, h.imp fun {r s} hgap p hp q hq => ?_⟩
  have hlast := (ByteRange.contains_iff.mp (hinside r p hp)).2
  have hfirst := (ByteRange.contains_iff.mp (hinside s q hq)).1
  omega

end ByteRanges

namespace ByteRange
variable {r s t p : ByteRange} {ss : ByteRanges}

theorem contains_self (r : ByteRange) : r.contains r = true :=
  contains_iff.mpr ⟨Int.le_refl _, Int.le_refl _⟩

theorem contains_trans (h : r.contains s = true) (h' : s.contains t = true) : r.contains t = true := by
  rw [contains_iff] at *
  exact ⟨Int.le_trans h.1 h'.1, Int.le_trans h'.2 h.2⟩

/-- The parts before and after another range lie inside, whatever the lengths. -/
theorem contains_of_mem_cutOut (hp : p ∈ r.cutOut s) : r.contains p = true := by
  rw [mem_cutOut] at hp
  split at hp
  · rename_i hmeet
    obtain ⟨-, -, hbefore, hafter⟩ := intersects_iff.mp hmeet
    rw [contains_iff]
    obtain ⟨hpart, rfl⟩ | ⟨hpart, rfl⟩ := hp
    · simp only [stop] at *
      omega
    · simp only [stop] at *
      omega
  · rw [hp]
    exact contains_self r

theorem apart_cutOut (r : ByteRange) (hs : 0 ≤ s.length) :
    (r.cutOut s).Pairwise fun p q => p.stop < q.offset := by
  unfold cutOut
  split
  · rename_i hmeet
    have hne := (intersects_iff.mp hmeet).2.1
    refine List.pairwise_append.mpr ⟨?_, ?_, fun p hp q hq => ?_⟩
    · split <;> simp
    · split <;> simp
    · simp only [List.mem_ite_nil_right, List.mem_singleton] at hp hq
      rw [hp.2, hq.2]
      simp only [stop]
      omega
  · exact List.pairwise_singleton _ _

theorem cutOut_sublist (hr : r.length ≤ 0) (s : ByteRange) : (r.cutOut s).Sublist [r] := by
  unfold cutOut
  split
  · rename_i hmeet
    obtain ⟨-, -, hbefore, hafter⟩ := intersects_iff.mp hmeet
    have hfirst : ¬ r.offset < s.offset := by
      simp only [stop] at hafter
      omega
    have hlast : ¬ s.stop < r.stop := by
      simp only [stop] at *
      omega
    rw [if_neg hfirst, if_neg hlast]
    exact List.nil_sublist _
  · exact List.Sublist.refl _

theorem contains_of_mem_exclude (hp : p ∈ r.exclude ss) : r.contains p = true := by
  refine List.foldlRecOn (motive := fun parts : ByteRanges => ∀ p ∈ parts, r.contains p = true) ss _
    (fun p hp => ?_) (fun parts hparts s _ q hq => ?_) p hp
  · rw [List.mem_singleton.mp hp]
    exact contains_self r
  · obtain ⟨part, hpart, hq⟩ := List.mem_flatMap.mp hq
    exact contains_trans (hparts part hpart) (contains_of_mem_cutOut hq)

theorem apart_exclude (h : ByteRanges.Sized ss) (r : ByteRange) :
    (r.exclude ss).Pairwise fun p q => p.stop < q.offset := by
  refine List.foldlRecOn (motive := fun parts : ByteRanges => parts.Pairwise fun p q => p.stop < q.offset)
    ss _ (List.pairwise_singleton _ r) fun parts hparts s hs => ?_
  exact ByteRanges.apart_flatMap (fun _ _ => contains_of_mem_cutOut)
    (fun part => apart_cutOut part (h s hs)) hparts

theorem exclude_sublist (hr : r.length ≤ 0) (ss : ByteRanges) : (r.exclude ss).Sublist [r] := by
  refine List.foldlRecOn (motive := fun parts : ByteRanges => parts.Sublist [r]) ss _ (List.Sublist.refl _)
    fun parts hparts s _ => ?_
  rcases List.sublist_singleton.mp hparts with rfl | rfl
  · exact List.nil_sublist _
  · rw [List.flatMap_singleton]
    exact cutOut_sublist hr s

/-- The parts that are left of a range are in ascending order and apart from each other. -/
theorem ascending_exclude (h : ByteRanges.Sized ss) (r : ByteRange) :
    (r.exclude ss).Pairwise fun p q => p.offset < q.offset ∧ p.stop < q.offset := by
  by_cases hr : 0 < r.length
  · refine (apart_exclude h r).imp_of_mem fun {p q} hp _ hgap => ⟨?_, hgap⟩
    have hpos := positive_exclude hr ss p hp
    rw [stop] at hgap
    omega
  · exact (List.pairwise_singleton _ r).sublist (exclude_sublist (Int.not_lt.mp hr) ss)

end ByteRange

theorem ByteRanges.Normal.exclude {rs ss : ByteRanges} (hrs : Normal rs) (h : Sized ss) :
    Normal (rs.exclude ss) where
  positive := hrs.positive.exclude ss
  apart := apart_flatMap (fun _ _ => ByteRange.contains_of_mem_exclude) (ByteRange.apart_exclude h) hrs.apart

/-! ## Whether nothing is left -/

namespace ByteRange
variable {r : ByteRange}

/-- A range without a length meets no other one, so nothing is ever cut out of it. -/
theorem exclude_of_length_eq_zero (h : r.length = 0) (ss : ByteRanges) : r.exclude ss = [r] := by
  refine List.foldlRecOn (motive := fun parts : ByteRanges => parts = [r]) ss _ rfl fun parts hparts s _ => ?_
  have hapart : ¬ r.intersects s = true := fun hmeet => (intersects_iff.mp hmeet).1 h
  rw [hparts, List.flatMap_singleton, cutOut, if_neg hapart]

/-- Nothing is left of a range exactly if it has a length and the others cover it. -/
theorem exclude_eq_nil_iff (h : 0 ≤ r.length) {ss : ByteRanges} :
    r.exclude ss = [] ↔ 0 < r.length ∧ ∀ a ∈ r, ByteRanges.Covers ss a := by
  by_cases hpos : 0 < r.length
  · rw [(positive_exclude hpos ss).eq_nil_iff, and_iff_right hpos]
    refine forall_congr' fun a => ?_
    rw [covers_exclude, not_and, Decidable.not_not]
  · refine iff_of_false ?_ fun hcovered => hpos hcovered.1
    rw [exclude_of_length_eq_zero (by omega)]
    exact List.cons_ne_nil r []

end ByteRange

namespace ByteRanges
variable {rs ss : ByteRanges}

theorem forall_covers_iff : (∀ a, Covers rs a → Covers ss a) ↔ ∀ r ∈ rs, ∀ a ∈ r, Covers ss a := by
  constructor
  · intro h r hr a ha
    exact h a ⟨r, hr, ha⟩
  · rintro h a ⟨r, hr, ha⟩
    exact h r hr a ha

/-- The test whether ranges are covered answers yes exactly if each of them has a length and the others cover every
address of theirs. So it tells whether the addresses are covered exactly if no range is without a length, or else if
some address is not covered anyway. -/
theorem isCoveredBy_iff_positive (h : Sized rs) (ss : ByteRanges) :
    (rs.isCoveredBy ss = true ↔ Positive rs ∧ ∀ a, Covers rs a → Covers ss a) ∧
      ((rs.isCoveredBy ss = true ↔ ∀ a, Covers rs a → Covers ss a) ↔
        Positive rs ∨ ∃ a, Covers rs a ∧ ¬ Covers ss a) := by
  have hexact : rs.isCoveredBy ss = true ↔ Positive rs ∧ ∀ a, Covers rs a → Covers ss a := by
    rw [isCoveredBy, List.isEmpty_iff, exclude, List.flatMap_eq_nil_iff, forall_covers_iff, Positive, ← forall₂_and]
    exact forall₂_congr fun r hr => ByteRange.exclude_eq_nil_iff (h r hr)
  refine ⟨hexact, ?_⟩
  have hcovered : (∃ a, Covers rs a ∧ ¬ Covers ss a) ↔ ¬ ∀ a, Covers rs a → Covers ss a := by
    simp only [not_forall, exists_prop]
  rw [hexact, hcovered, and_iff_right_iff_imp, or_comm, ← imp_iff_not_or]

/-- Two ranges that touch are covered by three that overlap, in any order; they are not if the last address is left
out, and then an empty range among them changes nothing. -/
theorem isCoveredBy_iff_positive_sample : Sized [⟨2, 2⟩, ⟨4, 3⟩] ∧ Sized [⟨2, 2⟩, ⟨4, 0⟩, ⟨4, 3⟩] ∧
    isCoveredBy [⟨2, 2⟩, ⟨4, 3⟩] [⟨6, 3⟩, ⟨0, 5⟩, ⟨3, 3⟩] = true ∧
    (∀ a, Covers [⟨2, 2⟩, ⟨4, 3⟩] a → Covers [⟨6, 3⟩, ⟨0, 5⟩, ⟨3, 3⟩] a) ∧
    ¬ ∀ a, Covers [⟨2, 2⟩, ⟨4, 0⟩, ⟨4, 3⟩] a → Covers [⟨0, 5⟩, ⟨3, 3⟩] a := by
  have hfull : Sized [⟨2, 2⟩, ⟨4, 3⟩] := by decide
  have hgap : Sized [⟨2, 2⟩, ⟨4, 0⟩, ⟨4, 3⟩] := by decide
  have hyes : isCoveredBy [⟨2, 2⟩, ⟨4, 3⟩] [⟨6, 3⟩, ⟨0, 5⟩, ⟨3, 3⟩] = true := by decide
  have hno : ¬ isCoveredBy [⟨2, 2⟩, ⟨4, 0⟩, ⟨4, 3⟩] [⟨0, 5⟩, ⟨3, 3⟩] = true := by decide
  refine ⟨hfull, hgap, hyes, ((isCoveredBy_iff_positive hfull _).1.mp hyes).2, fun hcovered => hno ?_⟩
  exact ((isCoveredBy_iff_positive hgap _).2.mpr (.inr ⟨6, by decide⟩)).mpr hcovered

/-- An empty range between covered addresses covers none, and still the test answers no. -/
theorem emptyRange_not_covered : ¬ ∀ rs ss : ByteRanges, Sized rs → Sized ss →
    (rs.isCoveredBy ss = true ↔ ∀ a, Covers rs a → Covers ss a) := by
  intro hexact
  have hnone : ∀ a, Covers [⟨2, 0⟩] a → Covers [⟨0, 4⟩] a := by
    intro a ha
    simp only [covers_cons, covers_nil, or_false, ByteRange.mem_iff, ByteRange.stop] at ha
    omega
  have hyes := (hexact [⟨2, 0⟩] [⟨0, 4⟩] (by decide) (by decide)).mpr hnone
  exact absurd hyes (by decide)

end ByteRanges

namespace References
variable {rs others : References} {r p : Reference} {x : Artifact} {m : Option AddressMap} {a : Int}

theorem normal_leftOf (hr : ByteRanges.Normal r.ranges) (h : ∀ o ∈ others, ByteRanges.Sized o.ranges) :
    ByteRanges.Normal (leftOf (merge others) r) := by
  unfold leftOf
  split
  · exact hr
  · rename_i o hfound
    exact hr.exclude (normal_of_mem_merge h (List.mem_of_find?_eq_some hfound)).positive.sized

theorem normal_of_mem_exclude (hrs : ∀ r ∈ rs, ByteRanges.Sized r.ranges)
    (h : ∀ o ∈ others, ByteRanges.Sized o.ranges) (hp : p ∈ exclude rs others) :
    ByteRanges.Normal p.ranges := by
  obtain ⟨r, hr, -, rfl⟩ := mem_exclude.mp hp
  exact normal_leftOf (normal_of_mem_merge hrs hr) h

theorem covers_of_mem_exclude (hp : p ∈ exclude rs others) : ByteRanges.Covers p.ranges a ↔
    CoversAt rs p.artifact p.map a ∧ ¬ CoversAt others p.artifact p.map a := by
  obtain ⟨r, hr, -, rfl⟩ := mem_exclude.mp hp
  rw [covers_leftOf, covers_of_mem_merge hr]

theorem exists_mem_exclude_iff (hrs : ∀ r ∈ rs, ByteRanges.Sized r.ranges)
    (h : ∀ o ∈ others, ByteRanges.Sized o.ranges) :
    (∃ p ∈ exclude rs others, p.artifact.Same x ∧ p.map = m) ↔
      ∃ a, CoversAt rs x m a ∧ ¬ CoversAt others x m a := by
  simp only [← coversAt_exclude]
  constructor
  · rintro ⟨p, hp, hsame, hmap⟩
    obtain ⟨r, -, hne, hpr⟩ := mem_exclude.mp hp
    obtain ⟨q, hq⟩ := List.exists_mem_of_ne_nil p.ranges (by rwa [hpr])
    exact ⟨q.offset, p, hp, hsame, hmap, (normal_of_mem_exclude hrs h hp).positive.covers_offset hq⟩
  · rintro ⟨a, p, hp, hsame, hmap, -⟩
    exact ⟨p, hp, hsame, hmap⟩

/-! ## One reference for each target -/

theorem distinct_withRanges? (f : Reference → ByteRanges) (h : rs.Pairwise fun r s => r.target ≠ s.target) :
    (rs.filterMap fun r => r.withRanges? (f r)).Pairwise fun r s => r.target ≠ s.target := by
  refine h.filterMap _ fun r s hne p hp q hq => ?_
  rw [(Reference.withRanges?_eq_some_iff.mp hp).2, (Reference.withRanges?_eq_some_iff.mp hq).2]
  exact hne

theorem distinct_merge (rs : References) : (merge rs).Pairwise fun r s => r.target ≠ s.target := by
  refine distinct_withRanges? (fun g => g.ranges.normalize) ?_
  rw [(List.mergeSort_perm _ _).pairwise_iff Ne.symm]
  exact List.pairwise_map.mp (nodup_grouped rs)

theorem distinct_exclude (rs others : References) :
    (exclude rs others).Pairwise fun r s => r.target ≠ s.target :=
  distinct_withRanges? (leftOf (merge others)) (distinct_merge rs)

/-- Exclusion is the difference of the covered addresses. The parts that are left of a range, whatever its length,
cover its addresses outside the others, lie in ascending order and apart from each other inside the range, and are
not empty if the range is not. Ranges are left the difference of the two unions. References are left, for each
artifact and map, at most one reference, whose normal ranges cover the difference, and none if nothing is left. -/
theorem exclude_is_difference :
    (∀ (r : ByteRange) (ss : ByteRanges), ByteRanges.Sized ss →
      (∀ a, ByteRanges.Covers (r.exclude ss) a ↔ a ∈ r ∧ ¬ ByteRanges.Covers ss a) ∧
      (r.exclude ss).Pairwise (fun p q => p.offset < q.offset ∧ p.stop < q.offset) ∧
      (∀ p ∈ r.exclude ss, r.contains p = true) ∧
      (0 < r.length → ∀ p ∈ r.exclude ss, 0 < p.length)) ∧
    (∀ (rs ss : ByteRanges) (a : Int),
      ByteRanges.Covers (rs.exclude ss) a ↔ ByteRanges.Covers rs a ∧ ¬ ByteRanges.Covers ss a) ∧
    (∀ rs others : References, (∀ r ∈ rs, ByteRanges.Sized r.ranges) →
      (∀ o ∈ others, ByteRanges.Sized o.ranges) →
      (exclude rs others).Pairwise (fun p q => ¬ (p.artifact.Same q.artifact ∧ p.map = q.map)) ∧
      (∀ p ∈ exclude rs others, p.ranges ≠ [] ∧ ByteRanges.Normal p.ranges ∧
        ∀ a, ByteRanges.Covers p.ranges a ↔
          CoversAt rs p.artifact p.map a ∧ ¬ CoversAt others p.artifact p.map a) ∧
      ∀ x m, (∃ p ∈ exclude rs others, p.artifact.Same x ∧ p.map = m) ↔
        ∃ a, CoversAt rs x m a ∧ ¬ CoversAt others x m a) := by
  refine ⟨fun r ss h => ?_, ByteRanges.covers_exclude, fun rs others hrs h => ?_⟩
  · exact ⟨r.covers_exclude ss, ByteRange.ascending_exclude h r,
      fun p => ByteRange.contains_of_mem_exclude, fun hr => ByteRange.positive_exclude hr ss⟩
  · refine ⟨?_, fun p hp => ?_, fun x m => exists_mem_exclude_iff hrs h⟩
    · exact (distinct_exclude rs others).imp fun hne htarget => hne (Reference.target_eq_iff.mpr htarget)
    · obtain ⟨r, -, hne, hpr⟩ := mem_exclude.mp hp
      refine ⟨?_, normal_of_mem_exclude hrs h hp, fun a => covers_of_mem_exclude hp⟩
      rwa [hpr]

def sampleCuts : ByteRanges := [⟨12, 8⟩, ⟨2, 3⟩, ⟨9, 0⟩, ⟨4, 2⟩]

def firstSample : Artifact := ⟨0, .raw Blob.plainName (ByteArray.mk #[1, 2, 3, 4])⟩

def secondSample : Artifact := ⟨1, .raw Blob.plainName (ByteArray.mk #[5, 6, 7, 8])⟩

def sampleLeft : References :=
  [⟨firstSample, some .physical, [⟨0, 4⟩]⟩, ⟨secondSample, none, [⟨0, 4⟩]⟩, ⟨firstSample, none, [⟨0, 4⟩]⟩]

def sampleExcluded : References :=
  [⟨secondSample, none, [⟨3, 1⟩]⟩, ⟨firstSample, none, [⟨1, 2⟩]⟩, ⟨secondSample, none, [⟨0, 3⟩]⟩]

/-- Of sixteen addresses two parts are left. By offset and by address some of the first artifact is left, but nothing
of the second one. -/
theorem exclude_is_difference_sample : ByteRanges.Sized sampleCuts ∧
    (⟨0, 16⟩ : ByteRange).exclude sampleCuts = [⟨0, 2⟩, ⟨6, 6⟩] ∧
    (∀ a, ByteRanges.Covers [⟨0, 2⟩, ⟨6, 6⟩] a ↔ a ∈ (⟨0, 16⟩ : ByteRange) ∧ ¬ ByteRanges.Covers sampleCuts a) ∧
    (∃ p ∈ exclude sampleLeft sampleExcluded, p.artifact.Same firstSample ∧ p.map = none) ∧
    (∃ p ∈ exclude sampleLeft sampleExcluded, p.artifact.Same firstSample ∧ p.map = some .physical) ∧
    ¬ ∃ p ∈ exclude sampleLeft sampleExcluded, p.artifact.Same secondSample ∧ p.map = none := by
  obtain ⟨hrange, -, hreferences⟩ := exclude_is_difference
  have hparts : (⟨0, 16⟩ : ByteRange).exclude sampleCuts = [⟨0, 2⟩, ⟨6, 6⟩] := by decide
  have hcovers := (hrange ⟨0, 16⟩ sampleCuts (by decide)).1
  rw [hparts] at hcovers
  have hleft := (hreferences sampleLeft sampleExcluded (by decide) (by decide)).2.2
  refine ⟨by decide, hparts, hcovers, (hleft _ _).mpr ⟨0, by decide⟩, (hleft _ _).mpr ⟨0, by decide⟩, ?_⟩
  rw [hleft]
  rintro ⟨a, hin, hout⟩
  simp [CoversAt, Artifact.Same, sampleLeft, sampleExcluded, firstSample, secondSample, ByteRange.mem_iff,
    ByteRange.stop] at hin hout
  omega

end References
end MeasuredBoot
