import Mathlib.Data.Int.Interval
import Mathlib.Data.Set.Card
import MeasuredBoot.Proofs.Reference.Ranges

/-!
# The normal form of ranges

A list of ranges is normal if each of them covers an address and a gap lies between each one and all that follow.
Sorting and joining makes every list normal, and a normal list is known by the addresses which it covers: its first
range begins at the least of them and ends at the first address above that is not covered. So two lists are joined
to the same ranges exactly if they cover the same addresses. The lengths of a normal list add up to the number of
these addresses.
-/
namespace MeasuredBoot.ByteRanges
variable {rs ss : ByteRanges} {r s : ByteRange} {a : Int}

theorem Positive.covers_offset (h : Positive rs) (hr : r ∈ rs) : Covers rs r.offset := by
  have hpos := h r hr
  exact ⟨r, hr, ByteRange.mem_iff.mpr ⟨Int.le_refl _, by rw [ByteRange.stop]; omega⟩⟩

theorem Positive.covers_last (h : Positive rs) (hr : r ∈ rs) : Covers rs (r.stop - 1) := by
  have hpos := h r hr
  refine ⟨r, hr, ByteRange.mem_iff.mpr ⟨?_, by omega⟩⟩
  rw [ByteRange.stop]
  omega

theorem Positive.forall_contains_iff (h : Positive rs) :
    (∀ r ∈ rs, s.contains r = true) ↔ ∀ a, Covers rs a → a ∈ s := by
  simp only [ByteRange.contains_iff]
  constructor
  · rintro hall a ⟨r, hr, ha⟩
    obtain ⟨hfirst, hlast⟩ := hall r hr
    exact ⟨Int.le_trans hfirst ha.1, Int.lt_of_lt_of_le ha.2 hlast⟩
  · intro hin r hr
    have hfirst := (hin _ (h.covers_offset hr)).1
    have hlast := (hin _ (h.covers_last hr)).2
    exact ⟨hfirst, by omega⟩

/-- Ranges with a gap between each one and those behind it, none of them empty. -/
structure Normal (rs : ByteRanges) : Prop where
  positive : Positive rs
  apart : rs.Pairwise fun r s => r.stop < s.offset

namespace Normal

theorem tail (h : Normal (r :: rs)) : Normal rs where
  positive s hs := h.positive s (by simp [hs])
  apart := (List.pairwise_cons.mp h.apart).2

theorem stop_lt (h : Normal (r :: rs)) (ha : Covers rs a) : r.stop < a := by
  obtain ⟨s, hs, hin⟩ := ha
  have hgap := (List.pairwise_cons.mp h.apart).1 s hs
  exact Int.lt_of_lt_of_le hgap (ByteRange.mem_iff.mp hin).1

theorem offset_lt_stop (h : Normal (r :: rs)) : r.offset < r.stop := by
  have hpos := h.positive r (by simp)
  rw [ByteRange.stop]
  omega

theorem covers_offset (h : Normal (r :: rs)) : Covers (r :: rs) r.offset :=
  h.positive.covers_offset (by simp)

/-- The first range begins at the least covered address. -/
theorem offset_le (h : Normal (r :: rs)) (ha : Covers (r :: rs) a) : r.offset ≤ a := by
  rcases covers_cons.mp ha with hin | hlater
  · exact hin.1
  · have hgap := h.stop_lt hlater
    have hpos := h.offset_lt_stop
    omega

theorem not_covers_stop (h : Normal (r :: rs)) : ¬ Covers (r :: rs) r.stop := by
  intro hcovers
  rcases covers_cons.mp hcovers with hin | hlater
  · exact Int.lt_irrefl _ hin.2
  · exact Int.lt_irrefl _ (h.stop_lt hlater)

theorem covers_tail_iff (h : Normal (r :: rs)) : Covers rs a ↔ Covers (r :: rs) a ∧ r.stop < a := by
  constructor
  · exact fun ha => ⟨covers_cons.mpr (Or.inr ha), h.stop_lt ha⟩
  · rintro ⟨ha, hgap⟩
    rcases covers_cons.mp ha with hin | hlater
    · exact absurd hin.2 (Int.lt_asymm hgap)
    · exact hlater

theorem stop_le (h : Normal (r :: rs)) (hoffset : s.offset = r.offset)
    (hcovers : ∀ a ∈ s, Covers (r :: rs) a) : s.stop ≤ r.stop := by
  refine Int.not_lt.mp fun hlonger => ?_
  have hpos := h.offset_lt_stop
  have hin : r.stop ∈ s := ByteRange.mem_iff.mpr ⟨by omega, hlonger⟩
  exact h.not_covers_stop (hcovers _ hin)

/-- Normal lists that cover the same addresses are equal. -/
theorem eq_of_covers (h : Normal rs) (h' : Normal ss) (hcovers : ∀ a, Covers rs a ↔ Covers ss a) :
    rs = ss := by
  induction rs generalizing ss with
  | nil =>
      symm
      rw [h'.positive.eq_nil_iff]
      exact fun a ha => covers_nil a ((hcovers a).mpr ha)
  | cons r rest ih =>
      cases ss with
      | nil => exact absurd ((hcovers _).mp h.covers_offset) (covers_nil _)
      | cons s others =>
          have hoffset : r.offset = s.offset :=
            Int.le_antisymm (h.offset_le ((hcovers _).mpr h'.covers_offset))
              (h'.offset_le ((hcovers _).mp h.covers_offset))
          have hstop : r.stop = s.stop :=
            Int.le_antisymm
              (h'.stop_le hoffset fun a ha => (hcovers a).mp (covers_cons.mpr (Or.inl ha)))
              (h.stop_le hoffset.symm fun a ha => (hcovers a).mpr (covers_cons.mpr (Or.inl ha)))
          have hrest : rest = others := by
            apply ih h.tail h'.tail
            intro a
            rw [h.covers_tail_iff, h'.covers_tail_iff, hcovers a, hstop]
          have hlength : r.length = s.length := by
            simp only [ByteRange.stop] at hstop
            omega
          obtain ⟨offset, length⟩ := r
          cases hoffset
          cases hlength
          rw [hrest]

end Normal

theorem offset_le_of_mem_coalesce (hsorted : (r :: rs).Pairwise fun r s => r.offset ≤ s.offset)
    (hs : s ∈ coalesce r rs) : r.offset ≤ s.offset := by
  induction rs generalizing r with
  | nil =>
      obtain rfl := List.mem_singleton.mp hs
      exact Int.le_refl _
  | cons next rest ih =>
      obtain ⟨hfirst, hrest⟩ := List.pairwise_cons.mp hsorted
      rw [coalesce] at hs
      split at hs
      · have hle := ih (sorted_joined hsorted _) hs
        exact hle
      · rcases List.mem_cons.mp hs with rfl | hs
        · exact Int.le_refl _
        · exact Int.le_trans (hfirst next (by simp)) (ih hrest hs)

/-- Joining leaves a gap between ranges that begin one after another. -/
theorem apart_coalesce (hsorted : (r :: rs).Pairwise fun r s => r.offset ≤ s.offset) :
    (coalesce r rs).Pairwise fun r s => r.stop < s.offset := by
  induction rs generalizing r with
  | nil => exact List.pairwise_singleton _ _
  | cons next rest ih =>
      have hrest := (List.pairwise_cons.mp hsorted).2
      rw [coalesce]
      split
      · exact ih (sorted_joined hsorted _)
      · rename_i hgap
        refine List.pairwise_cons.mpr ⟨fun x hx => ?_, ih hrest⟩
        have hle := offset_le_of_mem_coalesce hrest hx
        omega

theorem normal_normalize (h : Sized rs) : Normal rs.normalize := by
  refine ⟨positive_normalize h, ?_⟩
  have hsorted := (pairwise_sorted rs).filter (·.length ≠ 0)
  rw [normalize]
  generalize (rs.mergeSort ByteRange.precedes).filter (·.length ≠ 0) = sorted at hsorted
  cases sorted with
  | nil => exact List.Pairwise.nil
  | cons r rest => exact apart_coalesce hsorted

/-- Two lists are joined to the same ranges exactly if they cover the same addresses. -/
theorem normalize_eq_iff (h : Sized rs) (h' : Sized ss) :
    rs.normalize = ss.normalize ↔ ∀ a, Covers rs a ↔ Covers ss a := by
  constructor
  · intro heq a
    rw [← covers_normalize h, heq, covers_normalize h']
  · intro hcovers
    apply (normal_normalize h).eq_of_covers (normal_normalize h')
    intro a
    rw [covers_normalize h, covers_normalize h', hcovers a]

/-! ## How many addresses are covered -/

theorem setOf_covers_cons : {x : Int | Covers (r :: rs) x} = {x | x ∈ r} ∪ {x | Covers rs x} :=
  Set.ext fun _ => covers_cons

theorem finite_covers (rs : ByteRanges) : {x : Int | Covers rs x}.Finite := by
  induction rs with
  | nil => simp
  | cons r rest ih =>
      rw [setOf_covers_cons]
      exact (Set.finite_Ico r.offset r.stop).union ih

/-- The lengths of normal ranges add up to the number of addresses: no address is counted twice. -/
theorem Normal.totalLength_eq_ncard (h : Normal rs) : rs.totalLength = ({x : Int | Covers rs x}.ncard : Int) := by
  induction rs with
  | nil => simp [totalLength]
  | cons r rest ih =>
      have hdisjoint : Disjoint {x | x ∈ r} {x | Covers rest x} :=
        Set.disjoint_left.mpr fun x hin hlater => Int.lt_asymm hin.2 (h.stop_lt hlater)
      have hfinite : {x | x ∈ r}.Finite := Set.finite_Ico r.offset r.stop
      have hfirst : ({x | x ∈ r}.ncard : Int) = r.length := by
        have hpos := h.positive r (by simp)
        change ((Set.Ico r.offset r.stop).ncard : Int) = r.length
        rw [Set.ncard_eq_toFinset_card', Set.toFinset_Ico, Int.card_Ico, ByteRange.stop]
        omega
      rw [setOf_covers_cons, Set.ncard_union_eq hdisjoint hfinite (finite_covers rest), Nat.cast_add, hfirst,
        ← ih h.tail]
      rfl

/-- Sorting and joining is a canonical form. Whatever the lengths, it keeps the covered addresses. If no length
is negative, the result has no empty range and a gap between each range and those that follow, its total length
is the number of covered addresses, joining it again changes nothing, and lists that cover the same addresses,
however they are ordered, repeated or split, become the same list. -/
theorem normalize_canonical (rs : ByteRanges) :
    (∀ a, Covers rs.normalize a ↔ Covers rs a) ∧
    (Sized rs →
      (∀ r ∈ rs.normalize, 0 < r.length) ∧
      rs.normalize.Pairwise (fun r s => r.stop < s.offset) ∧
      {a : Int | Covers rs a}.Finite ∧ rs.normalize.totalLength = ({a : Int | Covers rs a}.ncard : Int) ∧
      rs.normalize.normalize = rs.normalize ∧
      ∀ ss, Sized ss → (∀ a, Covers ss a ↔ Covers rs a) → ss.normalize = rs.normalize) := by
  refine ⟨fun a => covers_normalize_iff, fun hsized => ?_⟩
  have hnormal := normal_normalize hsized
  have htotal : rs.normalize.totalLength = ({a : Int | Covers rs a}.ncard : Int) := by
    rw [hnormal.totalLength_eq_ncard]
    simp only [covers_normalize_iff]
  have hagain : rs.normalize.normalize = rs.normalize :=
    (normalize_eq_iff hnormal.positive.sized hsized).mpr fun a => covers_normalize_iff
  refine ⟨hnormal.positive, hnormal.apart, finite_covers rs, htotal, hagain, fun ss hss hcovers => ?_⟩
  exact (normalize_eq_iff hss hsized).mpr hcovers

/-- Ranges out of order, some of which lie side by side or one in another, one given twice, and one empty. -/
def shuffled : ByteRanges := [⟨8, 4⟩, ⟨0, 3⟩, ⟨3, 2⟩, ⟨1, 1⟩, ⟨6, 0⟩, ⟨0, 3⟩]

/-- Shuffled ranges become two, which count the nine addresses that they cover; the two in the other order become
the same list. -/
theorem normalize_canonical_shuffled : Sized shuffled ∧ shuffled.normalize = [⟨0, 5⟩, ⟨8, 4⟩] ∧
    ({a : Int | Covers shuffled a}.ncard : Int) = 9 ∧ normalize [⟨8, 4⟩, ⟨0, 5⟩] = shuffled.normalize := by
  have hsized : Sized shuffled := by decide
  have hvalue : shuffled.normalize = [⟨0, 5⟩, ⟨8, 4⟩] := by
    simp [shuffled, normalize, List.mergeSort, coalesce, ByteRange.precedes, ByteRange.stop]
  obtain ⟨-, -, -, htotal, -, hunique⟩ := (normalize_canonical shuffled).2 hsized
  refine ⟨hsized, hvalue, ?_, hunique _ (by decide) fun a => ?_⟩
  · rw [← htotal, hvalue]
    rfl
  · simp only [shuffled, covers_cons, covers_nil, ByteRange.mem_iff, ByteRange.stop, or_false]
    omega

end MeasuredBoot.ByteRanges
