import MeasuredBoot.ByteRange

/-!
# What ranges cover

Lists of ranges are compared by the addresses which they cover. Cutting one range out of another, and leaving
out the addresses of many, does to the covered addresses what the name says, whatever the lengths, and sorting
and joining keeps them. Where all lengths are positive, a list that covers nothing is empty.
-/
namespace MeasuredBoot

instance (r : ByteRange) (a : Int) : Decidable (a ∈ r) :=
  inferInstanceAs (Decidable (r.offset ≤ a ∧ a < r.stop))

namespace ByteRanges
variable {rs ss : ByteRanges} {a : Int}

instance (rs : ByteRanges) (a : Int) : Decidable (Covers rs a) :=
  inferInstanceAs (Decidable (∃ r ∈ rs, a ∈ r))

def Sized (rs : ByteRanges) : Prop := ∀ r ∈ rs, 0 ≤ r.length

instance (rs : ByteRanges) : Decidable (Sized rs) :=
  inferInstanceAs (Decidable (∀ r ∈ rs, 0 ≤ r.length))

def Positive (rs : ByteRanges) : Prop := ∀ r ∈ rs, 0 < r.length

theorem Positive.sized (h : Positive rs) : Sized rs := fun r hr => Int.le_of_lt (h r hr)

@[simp] theorem covers_nil (a : Int) : ¬ Covers [] a := by simp [Covers]

@[simp] theorem covers_cons {r : ByteRange} : Covers (r :: rs) a ↔ a ∈ r ∨ Covers rs a := by
  simp [Covers]

@[simp] theorem covers_append : Covers (rs ++ ss) a ↔ Covers rs a ∨ Covers ss a := by
  simp [Covers, or_and_right, exists_or]

theorem covers_flatMap {f : ByteRange → ByteRanges} :
    Covers (rs.flatMap f) a ↔ ∃ r ∈ rs, Covers (f r) a := by
  simp only [Covers, List.mem_flatMap]
  constructor
  · rintro ⟨p, ⟨r, hr, hp⟩, ha⟩
    exact ⟨r, hr, p, hp, ha⟩
  · rintro ⟨r, hr, p, hp, ha⟩
    exact ⟨p, ⟨r, hr, hp⟩, ha⟩

theorem Positive.eq_nil_iff (h : Positive rs) : rs = [] ↔ ∀ a, ¬ Covers rs a := by
  constructor
  · rintro rfl a
    exact covers_nil a
  · intro hnone
    cases rs with
    | nil => rfl
    | cons r rest =>
        have hpos := h r (by simp)
        refine absurd (covers_cons.mpr (Or.inl ?_)) (hnone r.offset)
        rw [ByteRange.mem_iff, ByteRange.stop]
        omega

end ByteRanges

/-! ## Leaving addresses out -/

namespace ByteRange
variable {r s : ByteRange} {a : Int}

theorem intersects_iff : r.intersects s = true ↔
    r.length ≠ 0 ∧ s.length ≠ 0 ∧ r.offset < s.stop ∧ s.offset < r.stop := by
  simp [intersects, and_assoc]

theorem contains_iff : r.contains s = true ↔ r.offset ≤ s.offset ∧ s.stop ≤ r.stop := by
  simp [contains]

theorem mem_cutOut {p : ByteRange} : p ∈ r.cutOut s ↔
    if r.intersects s then
      (r.offset < s.offset ∧ p = ⟨r.offset, s.offset - r.offset⟩) ∨
        (s.stop < r.stop ∧ p = ⟨s.stop, r.stop - s.stop⟩)
    else p = r := by
  unfold cutOut
  split
  · simp only [List.mem_append, List.mem_ite_nil_right, List.mem_singleton]
  · exact List.mem_singleton

theorem covers_cutOut (r s : ByteRange) (a : Int) :
    ByteRanges.Covers (r.cutOut s) a ↔ a ∈ r ∧ a ∉ s := by
  simp only [ByteRanges.Covers, mem_cutOut]
  by_cases h : r.intersects s = true
  · obtain ⟨-, -, hbefore, hafter⟩ := intersects_iff.mp h
    simp only [if_pos h]
    constructor
    · rintro ⟨p, ⟨hpart, rfl⟩ | ⟨hpart, rfl⟩, ha⟩
      · simp only [mem_iff, stop] at *
        omega
      · simp only [mem_iff, stop] at *
        omega
    · rintro ⟨hin, hout⟩
      by_cases hfirst : a < s.offset
      · refine ⟨_, Or.inl ⟨?_, rfl⟩, ?_⟩
        · simp only [mem_iff, stop] at *
          omega
        · simp only [mem_iff, stop] at *
          omega
      · refine ⟨_, Or.inr ⟨?_, rfl⟩, ?_⟩
        · simp only [mem_iff, stop] at *
          omega
        · simp only [mem_iff, stop] at *
          omega
  · simp only [if_neg h, exists_eq_left]
    refine ⟨fun hin => ⟨hin, fun hboth => h (intersects_iff.mpr ?_)⟩, And.left⟩
    simp only [mem_iff, stop] at *
    omega

theorem positive_cutOut (h : 0 < r.length) (s : ByteRange) : ByteRanges.Positive (r.cutOut s) := by
  intro p hp
  rw [mem_cutOut] at hp
  split at hp
  · obtain ⟨hpart, rfl⟩ | ⟨hpart, rfl⟩ := hp
    · simp only
      omega
    · simp only
      omega
  · rwa [hp]

end ByteRange

namespace ByteRanges
variable {rs ss : ByteRanges} {a : Int}

theorem covers_cutAll (ss parts : ByteRanges) (a : Int) :
    Covers (ss.foldl (fun ps s => ps.flatMap (·.cutOut s)) parts) a ↔ Covers parts a ∧ ¬ Covers ss a := by
  induction ss generalizing parts with
  | nil => simp
  | cons s rest ih =>
      rw [List.foldl_cons, ih, covers_flatMap, covers_cons, not_or, ← and_assoc]
      apply and_congr_left'
      simp only [ByteRange.covers_cutOut]
      constructor
      · rintro ⟨r, hr, hin, hout⟩
        exact ⟨⟨r, hr, hin⟩, hout⟩
      · rintro ⟨⟨r, hr, hin⟩, hout⟩
        exact ⟨r, hr, hin, hout⟩

theorem positive_cutAll {parts : ByteRanges} (h : Positive parts) (ss : ByteRanges) :
    Positive (ss.foldl (fun ps s => ps.flatMap (·.cutOut s)) parts) := by
  induction ss generalizing parts with
  | nil => exact h
  | cons s rest ih =>
      apply ih
      intro p hp
      obtain ⟨r, hr, hp⟩ := List.mem_flatMap.mp hp
      exact ByteRange.positive_cutOut (h r hr) s p hp

end ByteRanges

namespace ByteRange
variable {r : ByteRange}

theorem covers_exclude (r : ByteRange) (ss : ByteRanges) (a : Int) :
    ByteRanges.Covers (r.exclude ss) a ↔ a ∈ r ∧ ¬ ByteRanges.Covers ss a := by
  rw [exclude, ByteRanges.covers_cutAll, ByteRanges.covers_cons, or_iff_left (ByteRanges.covers_nil a)]

theorem positive_exclude (h : 0 < r.length) (ss : ByteRanges) : ByteRanges.Positive (r.exclude ss) := by
  refine ByteRanges.positive_cutAll (fun x hx => ?_) ss
  rwa [List.mem_singleton.mp hx]

end ByteRange

namespace ByteRanges
variable {rs ss : ByteRanges} {a : Int}

/-- What is left of ranges is what they cover outside the others. -/
theorem covers_exclude (rs ss : ByteRanges) (a : Int) :
    Covers (rs.exclude ss) a ↔ Covers rs a ∧ ¬ Covers ss a := by
  rw [exclude, covers_flatMap]
  simp only [ByteRange.covers_exclude]
  constructor
  · rintro ⟨r, hr, hin, hout⟩
    exact ⟨⟨r, hr, hin⟩, hout⟩
  · rintro ⟨⟨r, hr, hin⟩, hout⟩
    exact ⟨r, hr, hin, hout⟩

theorem Positive.exclude (h : Positive rs) (ss : ByteRanges) : Positive (rs.exclude ss) := by
  intro p hp
  obtain ⟨r, hr, hp⟩ := List.mem_flatMap.mp hp
  exact ByteRange.positive_exclude (h r hr) ss p hp

/-! ## Sorting and joining -/

theorem precedes_iff {r s : ByteRange} : r.precedes s = true ↔
    r.offset < s.offset ∨ (r.offset = s.offset ∧ r.length ≤ s.length) := by
  simp [ByteRange.precedes]

theorem precedes_trans (r s t : ByteRange) (h : r.precedes s = true) (h' : s.precedes t = true) :
    r.precedes t = true := by
  rw [precedes_iff] at *
  omega

theorem precedes_total (r s : ByteRange) : (r.precedes s || s.precedes r) = true := by
  rw [Bool.or_eq_true, precedes_iff, precedes_iff]
  omega

theorem pairwise_sorted (rs : ByteRanges) :
    (rs.mergeSort ByteRange.precedes).Pairwise fun r s => r.offset ≤ s.offset := by
  refine (List.pairwise_mergeSort precedes_trans precedes_total rs).imp fun {r s} h => ?_
  have hle := precedes_iff.mp h
  omega

/-- A joined range begins where its first part did, so what came behind its parts still comes behind it. -/
theorem sorted_joined {r s : ByteRange} (hsorted : (r :: s :: rs).Pairwise fun p q => p.offset ≤ q.offset)
    (length : Int) : (⟨r.offset, length⟩ :: rs).Pairwise fun p q => p.offset ≤ q.offset := by
  obtain ⟨hfirst, hrest⟩ := List.pairwise_cons.mp hsorted
  exact List.pairwise_cons.mpr ⟨fun p hp => hfirst p (by simp [hp]), (List.pairwise_cons.mp hrest).2⟩

/-- Joining ranges that begin one after another keeps the addresses, whatever the lengths. -/
theorem covers_coalesce {current : ByteRange}
    (hsorted : (current :: rs).Pairwise fun r s => r.offset ≤ s.offset) (a : Int) :
    Covers (coalesce current rs) a ↔ Covers (current :: rs) a := by
  induction rs generalizing current with
  | nil => exact Iff.rfl
  | cons r rest ih =>
      obtain ⟨hfirst, hrest⟩ := List.pairwise_cons.mp hsorted
      have hle := hfirst r (by simp)
      rw [coalesce]
      split
      · rename_i hjoined
        rw [ih (sorted_joined hsorted _), covers_cons, covers_cons, covers_cons, ← or_assoc]
        apply or_congr_left
        -- A range with a negative length ends before it begins, so nothing is ever joined to it.
        simp only [ByteRange.mem_iff, ByteRange.stop] at *
        omega
      · rw [covers_cons, ih hrest, ← covers_cons]

theorem positive_coalesce {current : ByteRange} (hpositive : Positive (current :: rs))
    (hsorted : (current :: rs).Pairwise fun r s => r.offset ≤ s.offset) : Positive (coalesce current rs) := by
  induction rs generalizing current with
  | nil => exact hpositive
  | cons r rest ih =>
      have hcurrent := hpositive current (by simp)
      have hr := hpositive r (by simp)
      obtain ⟨hfirst, hrest⟩ := List.pairwise_cons.mp hsorted
      have hle := hfirst r (by simp)
      rw [coalesce]
      split
      · apply ih ?_ (sorted_joined hsorted _)
        intro x hx
        rcases List.mem_cons.mp hx with rfl | hx
        · simp only [ByteRange.stop]
          omega
        · exact hpositive x (by simp [hx])
      · intro x hx
        rcases List.mem_cons.mp hx with rfl | hx
        · exact hcurrent
        · exact ih (fun y hy => hpositive y (by simp [hy])) hrest x hx

theorem mem_sorted {r : ByteRange} : r ∈ (rs.mergeSort ByteRange.precedes).filter (·.length ≠ 0) ↔
    r ∈ rs ∧ r.length ≠ 0 := by
  simp [List.mem_mergeSort]

theorem covers_sorted (rs : ByteRanges) (a : Int) :
    Covers ((rs.mergeSort ByteRange.precedes).filter (·.length ≠ 0)) a ↔ Covers rs a := by
  constructor
  · rintro ⟨r, hr, ha⟩
    exact ⟨r, (mem_sorted.mp hr).1, ha⟩
  · rintro ⟨r, hr, ha⟩
    refine ⟨r, mem_sorted.mpr ⟨hr, fun hzero => ?_⟩, ha⟩
    rw [ByteRange.mem_iff, ByteRange.stop] at ha
    omega

theorem covers_normalize_iff : Covers rs.normalize a ↔ Covers rs a := by
  have hsorted := (pairwise_sorted rs).filter (·.length ≠ 0)
  rw [← covers_sorted rs, normalize]
  generalize (rs.mergeSort ByteRange.precedes).filter (·.length ≠ 0) = sorted at hsorted
  cases sorted with
  | nil => exact Iff.rfl
  | cons r rest => exact covers_coalesce hsorted a

/-- Normalised ranges cover what they covered before, and each of them covers something. -/
theorem normalize_spec (h : Sized rs) :
    Positive rs.normalize ∧ ∀ a, Covers rs.normalize a ↔ Covers rs a := by
  refine ⟨?_, fun a => covers_normalize_iff⟩
  have hpositive : Positive ((rs.mergeSort ByteRange.precedes).filter (·.length ≠ 0)) := by
    intro r hr
    obtain ⟨hr, hne⟩ := mem_sorted.mp hr
    have := h r hr
    omega
  have hsorted := (pairwise_sorted rs).filter (·.length ≠ 0)
  rw [normalize]
  generalize (rs.mergeSort ByteRange.precedes).filter (·.length ≠ 0) = sorted at *
  cases sorted with
  | nil => exact hpositive
  | cons r rest => exact positive_coalesce hpositive hsorted

theorem positive_normalize (h : Sized rs) : Positive rs.normalize := (normalize_spec h).1

theorem covers_normalize (h : Sized rs) (a : Int) : Covers rs.normalize a ↔ Covers rs a :=
  (normalize_spec h).2 a

theorem normalize_singleton {r : ByteRange} (h : r.length ≠ 0) : normalize [r] = [r] := by
  simp [normalize, h, coalesce]

end ByteRanges
end MeasuredBoot
