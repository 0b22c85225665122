import MeasuredBoot.Proofs.Reproduce.Encoding
import MeasuredBoot.Proofs.Search.Register

/-!
# Admissible corrections

Which corrections the bounds of a search admit, and in which order they are tried, said about corrections
themselves: the locality, the disabled measurements, the register value and the exchanges. Corrections are
admissible just if they are given by positions in one of the lists that the search goes through, and the
order of the positions is the order of the corrections.
-/
namespace MeasuredBoot

def OrderSwap.Apart (s t : OrderSwap) : Prop :=
  s.first ≠ t.first ∧ s.first ≠ t.second ∧ s.second ≠ t.first ∧ s.second ≠ t.second

/-- Exchanges are ordered by their first index, then by their second. -/
def OrderSwap.Less (s t : OrderSwap) : Prop :=
  s.first < t.first ∨ s.first = t.first ∧ s.second < t.second

theorem OrderSwap.Less.asymm {s t : OrderSwap} (h : s.Less t) : ¬ t.Less s := by
  unfold OrderSwap.Less at *
  omega

namespace Pcr0

def firstEnabled (ms : List CommandRecord) (disabled : List Int) : Option CommandRecord :=
  (ms.zipIdx.filter fun (_, i) => !disabled.contains (i : Int)).head?.map Prod.fst

/-- The register values which the bounds admit, given the first enabled measurement: exactly if that is
the measurement of the data with the register there is a value, which lies within the bounds around the
recorded one. -/
def AdmitsRegister (flows : FlowCatalog) (bounds : RegisterBounds) (first : Option CommandRecord)
    (register : Option Int) : Prop :=
  match first with
  | none => register = none
  | some r =>
    match isDataMeasurement flows r with
    | .ok true => ∃ data recorded, dataOf r = .ok (data, recorded) ∧
        ∃ v : Nat, register = some (v : Int) ∧ RegisterSearch.Admissible bounds recorded.toNatLE v
    | _ => register = none

/-- Corrections within the bounds. -/
structure Admissible (flows : FlowCatalog) (bounds : Pcr0Bounds) (records : List CommandRecord)
    (a : Algorithm) (c : Corrections) : Prop where
  algorithm : c.algorithm = a
  locality : c.locality = 0 ∨ c.locality = 3
  disabled_increasing : c.disabled.Pairwise (· < ·)
  disabled_within : ∀ i ∈ c.disabled, 0 ≤ i ∧ i < (measurements records a).length
  disabled_few : (c.disabled.length : Int) ≤ bounds.maxDisabled
  register : AdmitsRegister flows bounds.toRegisterBounds
    (firstEnabled (measurements records a) c.disabled) c.register
  swaps_ordered : ∀ s ∈ c.swaps, 0 ≤ s.first ∧ s.first < s.second ∧
    s.second < (measurements records a).length
  swaps_enabled : ∀ s ∈ c.swaps, s.first ∉ c.disabled ∧ s.second ∉ c.disabled
  swaps_apart : c.swaps.Pairwise OrderSwap.Apart
  swaps_few : (c.swaps.length : Int) ≤ bounds.maxSwaps

/-- The order of two register values for the same first enabled measurement. -/
def RegisterPrecedes (bounds : RegisterBounds) (first : Option CommandRecord) (x y : Option Int) : Prop :=
  ∃ r data recorded, first = some r ∧ dataOf r = .ok (data, recorded) ∧
    ∃ v w : Nat, x = some (v : Int) ∧ y = some (w : Int) ∧
      RegisterSearch.Precedes bounds recorded.toNatLE v w

/-- The order in which corrections are tried. Exchanges are compared in the order in which they are
made, which is opposite to the one in which they are listed. -/
inductive Precedes (bounds : RegisterBounds) (ms : List CommandRecord) (c d : Corrections) : Prop
  | locality : c.locality < d.locality → Precedes bounds ms c d
  | fewerDisabled : c.locality = d.locality → c.disabled.length < d.disabled.length →
      Precedes bounds ms c d
  | disabled : c.locality = d.locality → c.disabled.length = d.disabled.length →
      c.disabled < d.disabled → Precedes bounds ms c d
  | register : c.locality = d.locality → c.disabled = d.disabled →
      RegisterPrecedes bounds (firstEnabled ms c.disabled) c.register d.register →
      Precedes bounds ms c d
  | fewerSwaps : c.locality = d.locality → c.disabled = d.disabled → c.register = d.register →
      c.swaps.length < d.swaps.length → Precedes bounds ms c d
  | swaps : c.locality = d.locality → c.disabled = d.disabled → c.register = d.register →
      c.swaps.length = d.swaps.length → List.Lex OrderSwap.Less c.swaps.reverse d.swaps.reverse →
      Precedes bounds ms c d

theorem RegisterPrecedes.asymm {bounds : RegisterBounds} {first : Option CommandRecord}
    {x y : Option Int} (h : RegisterPrecedes bounds first x y) : ¬ RegisterPrecedes bounds first y x := by
  obtain ⟨r, data, recorded, rfl, hdata, v, w, rfl, rfl, hlt⟩ := h
  rintro ⟨r', data', recorded', heq, hdata', w', v', hw, hv, hgt⟩
  obtain rfl := Option.some.inj heq
  obtain ⟨-, rfl⟩ := Prod.mk.inj (Except.ok.inj (hdata.symm.trans hdata'))
  obtain rfl := Int.ofNat_inj.mp (Option.some.inj hv)
  obtain rfl := Int.ofNat_inj.mp (Option.some.inj hw)
  exact hlt.asymm hgt

/-- A register value that precedes another one is another one. -/
theorem RegisterPrecedes.ne {bounds : RegisterBounds} {first : Option CommandRecord} {x y : Option Int}
    (h : RegisterPrecedes bounds first x y) : x ≠ y := by
  rintro rfl
  exact h.asymm h

/-- No corrections are tried both before and after others, so at most one answer is the first one. -/
theorem Precedes.asymm {bounds : RegisterBounds} {ms : List CommandRecord} {c d : Corrections}
    (h : Precedes bounds ms c d) : ¬ Precedes bounds ms d c := by
  intro h'
  have hdisabled {D E : List Int} (h : D < E) : D ≠ E := fun heq => List.lt_irrefl D (heq ▸ h)
  cases h with
  | locality h => cases h' <;> omega
  | fewerDisabled _ h =>
      cases h' with
      | locality _ => omega
      | fewerDisabled _ _ => omega
      | disabled _ _ _ => omega
      | register _ hd _ => rw [hd] at h; omega
      | fewerSwaps _ hd _ _ => rw [hd] at h; omega
      | swaps _ hd _ _ _ => rw [hd] at h; omega
  | disabled _ _ h =>
      cases h' with
      | locality _ => omega
      | fewerDisabled _ _ => omega
      | disabled _ _ h' => exact List.lt_asymm h h'
      | register _ hd _ => exact hdisabled h hd.symm
      | fewerSwaps _ hd _ _ => exact hdisabled h hd.symm
      | swaps _ hd _ _ _ => exact hdisabled h hd.symm
  | register _ hd h =>
      cases h' with
      | locality _ => omega
      | fewerDisabled _ _ => rw [hd] at *; omega
      | disabled _ _ h' => exact hdisabled h' hd.symm
      | register _ _ h' => rw [hd] at h; exact h.asymm h'
      | fewerSwaps _ _ hr _ => exact h.ne hr.symm
      | swaps _ _ hr _ _ => exact h.ne hr.symm
  | fewerSwaps _ hd hr h =>
      cases h' with
      | locality _ => omega
      | fewerDisabled _ _ => rw [hd] at *; omega
      | disabled _ _ h' => exact hdisabled h' hd.symm
      | register _ _ h' => exact h'.ne hr.symm
      | fewerSwaps _ _ _ _ => omega
      | swaps _ _ _ _ _ => omega
  | swaps _ hd hr _ h =>
      cases h' with
      | locality _ => omega
      | fewerDisabled _ _ => rw [hd] at *; omega
      | disabled _ _ h' => exact hdisabled h' hd.symm
      | register _ _ h' => exact h'.ne hr.symm
      | fewerSwaps _ _ _ _ => omega
      | swaps _ _ _ _ h' => exact List.lex_asymm (fun h => OrderSwap.Less.asymm h) h h'

/-! ## Positions and indexes -/

def disabledLists (limit : Int) (count : Nat) : List Combination :=
  Combination.between 0 (min limit count + 1).toNat count

theorem mem_disabledLists {limit : Int} {count : Nat} {disabled : Combination} :
    disabled ∈ disabledLists limit count ↔
      (disabled.length : Int) ≤ limit ∧ disabled.Pairwise (· < ·) ∧ ∀ i ∈ disabled, i < count := by
  rw [disabledLists, Combination.mem_between]
  constructor
  · rintro ⟨⟨-, hlt⟩, hs, hmem⟩
    exact ⟨by omega, hs, hmem⟩
  · rintro ⟨hle, hs, hmem⟩
    have := Combination.length_le_of_forall_lt hs hmem
    exact ⟨⟨by omega, by omega⟩, hs, hmem⟩

theorem firstEnabled_map (ms : List CommandRecord) (disabled : Combination) :
    firstEnabled ms (disabled.map Int.ofNat) = (enabledOf ms disabled).head? := by
  rw [← fst_enabledPairs, List.head?_map]
  rfl

theorem getD_mem_enabledIndexes {count : Nat} {disabled : Combination} {k : Nat}
    (h : k < (enabledIndexes count disabled).length) :
    (enabledIndexes count disabled).getD k 0 ∈ enabledIndexes count disabled := by
  rw [List.getD_eq_getElem?_getD, List.getElem?_eq_getElem h]
  exact List.getElem_mem h

theorem getD_lt_getD_iff {count : Nat} {disabled : Combination} {i k : Nat}
    (hi : i < (enabledIndexes count disabled).length) (hk : k < (enabledIndexes count disabled).length) :
    (enabledIndexes count disabled).getD i 0 < (enabledIndexes count disabled).getD k 0 ↔ i < k := by
  have hs := pairwise_enabledIndexes count disabled
  have hlt {i k : Nat} (hi : i < (enabledIndexes count disabled).length)
      (hk : k < (enabledIndexes count disabled).length) (h : i < k) :
      (enabledIndexes count disabled)[i] < (enabledIndexes count disabled)[k] :=
    List.pairwise_iff_getElem.mp hs i k hi hk h
  simp only [List.getD_eq_getElem?_getD, List.getElem?_eq_getElem hi, List.getElem?_eq_getElem hk,
    Option.getD_some]
  constructor
  · intro h
    rcases Nat.lt_trichotomy i k with hik | rfl | hki
    · exact hik
    · omega
    · have := hlt hk hi hki
      omega
  · exact hlt hi hk

theorem getD_inj_iff {count : Nat} {disabled : Combination} {i k : Nat}
    (hi : i < (enabledIndexes count disabled).length) (hk : k < (enabledIndexes count disabled).length) :
    (enabledIndexes count disabled).getD i 0 = (enabledIndexes count disabled).getD k 0 ↔ i = k := by
  have h1 := getD_lt_getD_iff hi hk
  have h2 := getD_lt_getD_iff hk hi
  omega

theorem exists_position {count : Nat} {disabled : Combination} {i : Nat} (hi : i < count)
    (hd : i ∉ disabled) :
    ∃ k < (enabledIndexes count disabled).length, (enabledIndexes count disabled).getD k 0 = i := by
  obtain ⟨k, hk, heq⟩ := List.getElem_of_mem (mem_enabledIndexes.mpr ⟨hi, hd⟩)
  refine ⟨k, hk, ?_⟩
  rw [List.getD_eq_getElem?_getD, List.getElem?_eq_getElem hk]
  exact heq

/-- The index at a position is one of a measurement, and not one of the disabled ones. -/
theorem enabled_getD {count : Nat} {disabled : Combination} {k : Nat}
    (h : k < (enabledIndexes count disabled).length) :
    (enabledIndexes count disabled).getD k 0 < count ∧
      (((enabledIndexes count disabled).getD k 0 : Nat) : Int) ∉ disabled.map Int.ofNat := by
  obtain ⟨hlt, hnot⟩ := mem_enabledIndexes.mp (getD_mem_enabledIndexes h)
  refine ⟨hlt, fun hmem => hnot ?_⟩
  obtain ⟨i, hi, heq⟩ := List.mem_map.mp hmem
  rwa [← Int.ofNat_inj.mp heq]

theorem exists_position_int {count : Nat} {disabled : Combination} {i : Int} (hnonneg : 0 ≤ i)
    (hlt : i < count) (hnot : i ∉ disabled.map Int.ofNat) :
    ∃ k < (enabledIndexes count disabled).length,
      (((enabledIndexes count disabled).getD k 0 : Nat) : Int) = i := by
  have hnat : i.toNat ∉ disabled := by
    intro hmem
    exact hnot (List.mem_map.mpr ⟨i.toNat, hmem, Int.toNat_of_nonneg hnonneg⟩)
  have hcount : i.toNat < count := by omega
  obtain ⟨k, hk, heq⟩ := exists_position hcount hnat
  exact ⟨k, hk, by omega⟩

/-- Pairs of positions among the enabled measurements, the smaller one first. -/
def Within (count : Nat) (disabled : Combination) (p : Nat × Nat) : Prop :=
  p.1 < p.2 ∧ p.2 < (enabledIndexes count disabled).length

theorem within_of_mem_trials {ms : List CommandRecord} {disabled : Combination} {limit : Int}
    {s : List (Nat × Nat)} (h : s ∈ Reorder.trials limit (enabledOf ms disabled).length) :
    ∀ p ∈ s, Within ms.length disabled p := by
  have hmem := (Reorder.mem_trials.mp h).2.1
  rwa [length_enabledOf] at hmem

theorem apart_orderSwaps_iff {count : Nat} {disabled : Combination} {s : List (Nat × Nat)}
    (hs : ∀ p ∈ s, Within count disabled p) :
    (orderSwaps (enabledIndexes count disabled) s).Pairwise OrderSwap.Apart ↔
      s.Pairwise Reorder.Apart := by
  rw [orderSwaps, List.pairwise_map]
  refine List.Pairwise.iff_of_mem fun {p q} hp hq => ?_
  obtain ⟨hp1, hp2⟩ := hs p hp
  obtain ⟨hq1, hq2⟩ := hs q hq
  have hp1 := Nat.lt_trans hp1 hp2
  have hq1 := Nat.lt_trans hq1 hq2
  simp only [OrderSwap.Apart, Reorder.Apart, ne_eq, Int.ofNat_inj, getD_inj_iff hp1 hq1,
    getD_inj_iff hp1 hq2, getD_inj_iff hp2 hq1, getD_inj_iff hp2 hq2]

theorem lex_orderSwaps {count : Nat} {disabled : Combination} {s t : List (Nat × Nat)}
    (h : List.Lex Reorder.PairLess s t) (hs : ∀ p ∈ s, Within count disabled p)
    (ht : ∀ p ∈ t, Within count disabled p) :
    List.Lex OrderSwap.Less (orderSwaps (enabledIndexes count disabled) s)
      (orderSwaps (enabledIndexes count disabled) t) := by
  induction h with
  | nil => exact .nil
  | cons _ ih => exact .cons (ih (fun q hq => hs q (by simp [hq])) fun q hq => ht q (by simp [hq]))
  | @rel p s q t hpq =>
      obtain ⟨hp1, hp2⟩ := hs p (by simp)
      obtain ⟨hq1, hq2⟩ := ht q (by simp)
      have hp1 := Nat.lt_trans hp1 hp2
      have hq1 := Nat.lt_trans hq1 hq2
      refine .rel ?_
      simp only [OrderSwap.Less, Int.ofNat_lt, Int.ofNat_inj]
      cases hpq with
      | left _ _ hlt => exact Or.inl ((getD_lt_getD_iff hp1 hq1).mpr hlt)
      | right _ hlt => exact Or.inr ⟨rfl, (getD_lt_getD_iff hp2 hq2).mpr hlt⟩

/-! ## Admissible corrections by position -/

section Position
variable {flows : FlowCatalog} {bounds : Pcr0Bounds} {records : List CommandRecord} {a : Algorithm}

/-- The register values that are admitted for the measurements that are left enabled. -/
abbrev AdmitsValue (flows : FlowCatalog) (bounds : RegisterBounds) (rs : List CommandRecord)
    (v : Option Nat) : Prop := AdmitsRegister flows bounds rs.head? (v.map Int.ofNat)

theorem admitsValue_nil {bounds : RegisterBounds} {v : Option Nat} :
    AdmitsValue flows bounds [] v ↔ v = none := by
  rw [AdmitsValue, List.head?_nil, AdmitsRegister]
  exact Option.map_eq_none_iff

theorem admitsValue_of_other {bounds : RegisterBounds} {r : CommandRecord}
    (his : isDataMeasurement flows r = .ok false) (rest : List CommandRecord) {v : Option Nat} :
    AdmitsValue flows bounds (r :: rest) v ↔ v = none := by
  rw [AdmitsValue, List.head?_cons, AdmitsRegister]
  simp [his]

theorem admitsValue_of_data {bounds : RegisterBounds} {r : CommandRecord}
    (his : isDataMeasurement flows r = .ok true) {data register : Bytes}
    (hdata : dataOf r = .ok (data, register)) (rest : List CommandRecord) {v : Option Nat} :
    AdmitsValue flows bounds (r :: rest) v ↔
      ∃ w, v = some w ∧ RegisterSearch.Admissible bounds register.toNatLE w := by
  rw [AdmitsValue, List.head?_cons, AdmitsRegister]
  simp only [his, hdata]
  constructor
  · rintro ⟨_, _, ⟨⟩, w, hv, hw⟩
    cases v with
    | none => cases hv
    | some u =>
        cases hv
        exact ⟨w, rfl, hw⟩
  · rintro ⟨w, rfl, hw⟩
    exact ⟨data, register, rfl, w, rfl, hw⟩

theorem admissible_corrections {locality : Int} (hl : locality = 0 ∨ locality = 3)
    {disabled : Combination}
    (hd : disabled ∈ disabledLists bounds.maxDisabled (measurements records a).length)
    {v : Option Nat}
    (hv : AdmitsValue flows bounds.toRegisterBounds (enabledOf (measurements records a) disabled) v)
    {s : List (Nat × Nat)}
    (hs : s ∈ Reorder.trials bounds.maxSwaps (enabledOf (measurements records a) disabled).length) :
    Admissible flows bounds records a
      (corrections a locality (measurements records a).length disabled v s) := by
  obtain ⟨hfew, hsorted, hwithin⟩ := mem_disabledLists.mp hd
  obtain ⟨hcount, -, hapart⟩ := Reorder.mem_trials.mp hs
  have hpos := within_of_mem_trials hs
  refine {
    algorithm := rfl
    locality := hl
    disabled_increasing := List.pairwise_map.mpr (hsorted.imp fun h => Int.ofNat_lt.mpr h)
    disabled_within := ?_
    disabled_few := by simpa [corrections] using hfew
    register := ?_
    swaps_ordered := ?_
    swaps_enabled := ?_
    swaps_apart := (apart_orderSwaps_iff hpos).mpr hapart
    swaps_few := by simpa [corrections, orderSwaps] using hcount }
  · intro i hi
    obtain ⟨k, hk, rfl⟩ := List.mem_map.mp hi
    exact ⟨Int.natCast_nonneg k, Int.ofNat_lt.mpr (hwithin k hk)⟩
  · rw [corrections, firstEnabled_map]
    exact hv
  · intro w hw
    obtain ⟨p, hp, rfl⟩ := List.mem_map.mp hw
    obtain ⟨h1, h2⟩ := hpos p hp
    have hlt := (getD_lt_getD_iff (Nat.lt_trans h1 h2) h2).mpr h1
    have hmax := (enabled_getD h2).1
    exact ⟨Int.natCast_nonneg _, Int.ofNat_lt.mpr hlt, Int.ofNat_lt.mpr hmax⟩
  · intro w hw
    obtain ⟨p, hp, rfl⟩ := List.mem_map.mp hw
    obtain ⟨h1, h2⟩ := hpos p hp
    exact ⟨(enabled_getD (Nat.lt_trans h1 h2)).2, (enabled_getD h2).2⟩

theorem exists_value {rs : List CommandRecord} {register : Option Int}
    (h : AdmitsRegister flows bounds.toRegisterBounds rs.head? register) :
    ∃ v, register = v.map Int.ofNat ∧ AdmitsValue flows bounds.toRegisterBounds rs v := by
  obtain ⟨v, rfl⟩ : ∃ v : Option Nat, register = v.map Int.ofNat := by
    unfold AdmitsRegister at h
    split at h
    · exact ⟨none, h⟩
    · split at h
      · obtain ⟨data, recorded, -, v, hv, -⟩ := h
        exact ⟨some v, hv⟩
      · exact ⟨none, h⟩
  exact ⟨v, rfl, h⟩

/-- What admissible corrections disable is one of the lists that are tried. -/
theorem Admissible.exists_disabled {c : Corrections} (h : Admissible flows bounds records a c) :
    ∃ disabled ∈ disabledLists bounds.maxDisabled (measurements records a).length,
      disabled.map Int.ofNat = c.disabled := by
  have hlist : ∃ disabled : Combination, disabled.map Int.ofNat = c.disabled ∧
      ∀ i ∈ disabled, i < (measurements records a).length := by
    refine exists_map_eq fun i hi => ?_
    obtain ⟨hnonneg, hlt⟩ := h.disabled_within i hi
    exact ⟨i.toNat, by omega, Int.toNat_of_nonneg hnonneg⟩
  obtain ⟨disabled, hdisabled, hwithin⟩ := hlist
  have hsorted : disabled.Pairwise (· < ·) := by
    have hincreasing := h.disabled_increasing
    rw [← hdisabled, List.pairwise_map] at hincreasing
    exact hincreasing.imp fun hlt => Int.ofNat_lt.mp hlt
  have hfew : (disabled.length : Int) ≤ bounds.maxDisabled := by
    simpa [← hdisabled] using h.disabled_few
  exact ⟨disabled, mem_disabledLists.mpr ⟨hfew, hsorted, hwithin⟩, hdisabled⟩

theorem Admissible.exists_swaps {c : Corrections} (h : Admissible flows bounds records a c)
    {disabled : Combination} (hdisabled : disabled.map Int.ofNat = c.disabled) :
    ∃ s ∈ Reorder.trials bounds.maxSwaps (enabledOf (measurements records a) disabled).length,
      orderSwaps (enabledIndexes (measurements records a).length disabled) s = c.swaps := by
  have hswaps : ∃ s : List (Nat × Nat),
      orderSwaps (enabledIndexes (measurements records a).length disabled) s = c.swaps ∧
        ∀ p ∈ s, Within (measurements records a).length disabled p := by
    refine exists_map_eq fun w hw => ?_
    obtain ⟨hnonneg, hlt, hmax⟩ := h.swaps_ordered w hw
    obtain ⟨hfirst, hsecond⟩ := h.swaps_enabled w hw
    rw [← hdisabled] at hfirst hsecond
    have hbelow : w.first < (measurements records a).length := by omega
    obtain ⟨i, hi, heqi⟩ := exists_position_int hnonneg hbelow hfirst
    obtain ⟨k, hk, heqk⟩ := exists_position_int (by omega) hmax hsecond
    have hik := (getD_lt_getD_iff hi hk).mp (by omega)
    refine ⟨(i, k), ⟨hik, hk⟩, ?_⟩
    simp only [heqi, heqk]
  obtain ⟨s, hs, hpos⟩ := hswaps
  have hapart := h.swaps_apart
  rw [← hs, apart_orderSwaps_iff hpos] at hapart
  have hcount : (s.length : Int) ≤ bounds.maxSwaps := by
    simpa [← hs, orderSwaps] using h.swaps_few
  refine ⟨s, Reorder.mem_trials.mpr ⟨hcount, ?_, hapart⟩, hs⟩
  rw [length_enabledOf]
  exact hpos

theorem exists_corrections {c : Corrections} (h : Admissible flows bounds records a c) :
    ∃ disabled ∈ disabledLists bounds.maxDisabled (measurements records a).length, ∃ v s,
      AdmitsValue flows bounds.toRegisterBounds (enabledOf (measurements records a) disabled) v ∧
      s ∈ Reorder.trials bounds.maxSwaps (enabledOf (measurements records a) disabled).length ∧
      c = corrections a c.locality (measurements records a).length disabled v s := by
  obtain ⟨disabled, hmem, hdisabled⟩ := h.exists_disabled
  obtain ⟨s, hs, hswaps⟩ := h.exists_swaps hdisabled
  have hregister := h.register
  rw [← hdisabled, firstEnabled_map] at hregister
  obtain ⟨v, hregister, hv⟩ := exists_value hregister
  refine ⟨disabled, hmem, v, s, hv, hs, ?_⟩
  have halgorithm := h.algorithm
  cases c
  simp only at halgorithm hdisabled hregister hswaps
  rw [corrections, halgorithm, hdisabled, hregister, hswaps]

end Position
end Pcr0
end MeasuredBoot
