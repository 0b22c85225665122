import Mathlib.Data.Nat.Choose.Central
import MeasuredBoot.Proofs.Search.BitFlips
import MeasuredBoot.Proofs.Search.Flips
import MeasuredBoot.Search.Register

/-!
# The register values that are tried

With a check that does not fail, a search for a register value goes through one list: the recorded value
counted down, and then, if asked for, the recorded value with ever more bits flipped. A value is in the
list if it lies close enough below the recorded one, around the end of the range too, or differs from it
in few enough bits; the answer comes before every other accepted value, in the order of the countdown and
then in that of the flipped bits. A value that the countdown reaches a second time changes nothing.
-/
namespace MeasuredBoot.RegisterSearch
open Combination (differing flipAll)

/-- How far a value lies below the recorded one, around the end of the range of the register. -/
def countdown (recorded candidate : Nat) : Nat := wrapped (recorded - candidate)

/-- A value which the bounds of a search admit for a recorded one. -/
def Admissible (bounds : RegisterBounds) (recorded v : Nat) : Prop :=
  v < 2 ^ 64 ∧ ((countdown recorded v : Int) < bounds.maxCountdown ∨
    bounds.combinatorial = true ∧ ((differing 64 recorded v).length : Int) ≤ bounds.maxFlips)

/-- The order in which values are tried: those within the countdown by their distance, then the others by
the bits in which they differ from the recorded value. -/
def Precedes (bounds : RegisterBounds) (recorded v w : Nat) : Prop :=
  if (countdown recorded w : Int) < bounds.maxCountdown then countdown recorded v < countdown recorded w
  else (countdown recorded v : Int) < bounds.maxCountdown ∨
    Combination.Before (differing 64 recorded v) (differing 64 recorded w)

theorem Precedes.asymm {bounds : RegisterBounds} {recorded v w : Nat}
    (h : Precedes bounds recorded v w) : ¬ Precedes bounds recorded w v := by
  unfold Precedes at h ⊢
  by_cases hw : (countdown recorded w : Int) < bounds.maxCountdown
  · rw [if_pos hw] at h
    rw [if_pos (by omega)]
    omega
  · rw [if_neg hw] at h
    obtain hv | hbefore := h
    · rw [if_pos hv]
      omega
    · split
      · omega
      · exact not_or.mpr ⟨hw, hbefore.asymm⟩

/-! ## Wrapping -/

theorem wrapped_lt (v : Int) : wrapped v < 2 ^ 64 := by
  unfold wrapped
  omega

theorem wrapped_of_lt {v : Nat} (h : v < 2 ^ 64) : wrapped v = v := by
  unfold wrapped
  omega

@[simp] theorem bytes_wrapped (v : Int) : bytes (wrapped v) = bytes v := by
  rw [bytes, wrapped_of_lt (wrapped_lt v), bytes]

@[simp] theorem length_bytes (v : Int) : (bytes v).length = 8 := Bytes.length_ofNatLE 8 _

theorem toNatLE_lt_of_length {b : Bytes} (h : b.length = 8) : b.toNatLE < 2 ^ 64 := by
  have := Bytes.toNatLE_lt b
  rwa [h] at this

theorem bytes_toNatLE {b : Bytes} (h : b.length = 8) : bytes b.toNatLE = b := by
  rw [bytes, wrapped_of_lt (toNatLE_lt_of_length h), ← h, Bytes.ofNatLE_toNatLE]

theorem wrapped_sub_countdown {recorded v : Nat} (hv : v < 2 ^ 64) :
    wrapped (recorded - countdown recorded v) = v := by
  unfold countdown wrapped
  omega

theorem countdown_wrapped (recorded d : Nat) :
    countdown recorded (wrapped (recorded - d)) = d % 2 ^ 64 := by
  unfold countdown wrapped
  omega

theorem admissible_self {bounds : RegisterBounds} {recorded : Nat} (h : recorded < 2 ^ 64)
    (hflips : bounds.combinatorial = true → 0 ≤ bounds.maxFlips) :
    Admissible bounds recorded recorded ↔ 0 < bounds.maxCountdown ∨ bounds.combinatorial = true := by
  have hcountdown : countdown recorded recorded = 0 := by simp [countdown, wrapped]
  have hdiffering : differing 64 recorded recorded = [] := by simp [differing]
  simp only [Admissible, hcountdown, hdiffering, h, true_and, List.length_nil, Nat.cast_zero]
  exact or_congr_right (and_iff_left_of_imp hflips)

/-! ## The values that are tried -/

/-- The recorded value and the values below it, as they are tried. -/
def counted (recorded : Nat) (limit : Int) : List Nat :=
  (List.range limit.toNat).map fun d : Nat => wrapped (recorded - d)

abbrev flipQuery (initial : Bytes) (limit : Int) (check : Bytes → Except Fault Bool) : BitFlips.Query :=
  { initial := initial, lowest := 0, highest := limit, check := check }

/-- The recorded value with ever more bits flipped, as they are tried. -/
def flipped (initial : Bytes) (limit : Int) : List Nat :=
  (BitFlips.candidates (flipQuery initial limit fun _ => .ok false)).map fun c =>
    (flipAll initial c).toNatLE

def values (initial : Bytes) (bounds : RegisterBounds) : List Nat :=
  counted initial.toNatLE bounds.maxCountdown ++
    if bounds.combinatorial then flipped initial bounds.maxFlips else []

theorem mem_counted {recorded v : Nat} {limit : Int} :
    v ∈ counted recorded limit ↔ v < 2 ^ 64 ∧ (countdown recorded v : Int) < limit := by
  simp only [counted, List.mem_map, List.mem_range]
  constructor
  · rintro ⟨d, hd, rfl⟩
    refine ⟨wrapped_lt _, ?_⟩
    rw [countdown_wrapped]
    have := Nat.mod_le d (2 ^ 64)
    omega
  · rintro ⟨hv, hlt⟩
    exact ⟨countdown recorded v, by omega, wrapped_sub_countdown hv⟩

/-- The first accepted value of the countdown is the one nearest to the recorded value. -/
theorem least_of_find?_counted {recorded v : Nat} {limit : Int} {p : Nat → Bool}
    (h : (counted recorded limit).find? p = some v) {w : Nat} (hw : w < 2 ^ 64) (hp : p w = true) :
    v = w ∨ countdown recorded v < countdown recorded w := by
  have hv : v < 2 ^ 64 := (mem_counted.mp (List.mem_of_find?_eq_some h)).1
  rw [counted, List.find?_map] at h
  obtain ⟨d, hd, rfl⟩ := Option.map_eq_some_iff.mp h
  obtain ⟨-, -, hfirst⟩ := List.find?_range_eq_some.mp hd
  have hle : d ≤ countdown recorded w := by
    by_contra hnot
    have := hfirst (countdown recorded w) (Nat.lt_of_not_le hnot)
    simp [wrapped_sub_countdown hw, hp] at this
  have hmod := Nat.mod_le d (2 ^ 64)
  rcases Nat.lt_or_eq_of_le (Nat.le_trans hmod hle) with hlt | heq
  · exact Or.inr (by rwa [countdown_wrapped])
  · left
    rw [← countdown_wrapped recorded] at heq
    rw [← wrapped_sub_countdown hw, ← heq, wrapped_sub_countdown hv]

section Flipped
variable {initial : Bytes} (h8 : initial.length = 8)
include h8

theorem differing_mem_candidates {v : Nat} {limit : Int} {check : Bytes → Except Fault Bool} :
    differing 64 initial.toNatLE v ∈ BitFlips.candidates (flipQuery initial limit check) ↔
      (differing 64 initial.toNatLE v).length ≤ limit.toNat := by
  rw [BitFlips.mem_candidates]
  constructor
  · exact fun h => h.2.1
  · intro h
    refine ⟨Nat.zero_le _, h, Combination.pairwise_differing _ _ _, fun i hi => ?_⟩
    rw [h8]
    exact (Combination.mem_differing.mp hi).1

theorem differing_of_mem_candidates {c : Combination} {limit : Int}
    {check : Bytes → Except Fault Bool} (hc : c ∈ BitFlips.candidates (flipQuery initial limit check)) :
    differing 64 initial.toNatLE (flipAll initial c).toNatLE = c := by
  obtain ⟨-, -, hs, hmem⟩ := BitFlips.mem_candidates.mp hc
  have := Combination.differing_flipAll hs hmem
  rwa [h8] at this

theorem flipAll_differing {v : Nat} (hv : v < 2 ^ 64) :
    (flipAll initial (differing 64 initial.toNatLE v)).toNatLE = v := by
  have := Combination.toNatLE_flipAll_differing (b := initial) (v := v) (by rwa [h8])
  rwa [h8] at this

theorem mem_flipped {v : Nat} {limit : Int} (hlimit : 0 ≤ limit) :
    v ∈ flipped initial limit ↔
      v < 2 ^ 64 ∧ ((differing 64 initial.toNatLE v).length : Int) ≤ limit := by
  rw [flipped, List.mem_map]
  constructor
  · rintro ⟨c, hc, rfl⟩
    refine ⟨toNatLE_lt_of_length (by simpa using h8), ?_⟩
    have hlen := (BitFlips.mem_candidates.mp hc).2.1
    rw [differing_of_mem_candidates h8 hc]
    simp only at hlen
    omega
  · rintro ⟨hv, hle⟩
    exact ⟨_, (differing_mem_candidates h8).mpr (by omega), flipAll_differing h8 hv⟩

theorem pairwise_flipped (limit : Int) : (flipped initial limit).Pairwise fun v w =>
    Combination.Before (differing 64 initial.toNatLE v) (differing 64 initial.toNatLE w) := by
  refine List.pairwise_map.mpr ((BitFlips.pairwise_candidates _).imp_of_mem ?_)
  intro c d hc hd hcd
  rwa [differing_of_mem_candidates h8 hc, differing_of_mem_candidates h8 hd]

variable {bounds : RegisterBounds} (hflips : bounds.combinatorial = true → 0 ≤ bounds.maxFlips)
include hflips

theorem mem_values {v : Nat} : v ∈ values initial bounds ↔ Admissible bounds initial.toNatLE v := by
  rw [values, List.mem_append, mem_counted, Admissible]
  cases hc : bounds.combinatorial with
  | false => simp
  | true =>
      rw [if_pos rfl, mem_flipped h8 (hflips hc), ← and_or_left]
      simp

theorem least_of_find?_values {p : Nat → Bool} {v : Nat} (h : (values initial bounds).find? p = some v)
    {w : Nat} (hw : Admissible bounds initial.toNatLE w) (hp : p w = true) :
    v = w ∨ Precedes bounds initial.toNatLE v w := by
  rw [values, List.find?_append] at h
  cases hfirst : (counted initial.toNatLE bounds.maxCountdown).find? p with
  | some u =>
      rw [hfirst] at h
      obtain rfl : u = v := by simpa using h
      unfold Precedes
      split
      · exact least_of_find?_counted hfirst hw.1 hp
      · exact Or.inr (Or.inl (mem_counted.mp (List.mem_of_find?_eq_some hfirst)).2)
  | none =>
      have hnot {u : Nat} (hu : u < 2 ^ 64) (hpu : p u = true) :
          ¬ (countdown initial.toNatLE u : Int) < bounds.maxCountdown := fun hlt =>
        List.find?_eq_none.mp hfirst u (mem_counted.mpr ⟨hu, hlt⟩) hpu
      rw [hfirst, Option.none_or] at h
      obtain hlt | ⟨hc, hle⟩ := hw.2
      · exact absurd hlt (hnot hw.1 hp)
      · rw [if_pos hc] at h
        have hmem := (mem_flipped h8 (hflips hc)).mpr ⟨hw.1, hle⟩
        obtain ⟨-, -, hleast⟩ := exists_least_of_find? (pairwise_flipped h8 _) h
        refine (hleast w hmem hp).imp_right fun hbefore => ?_
        rw [Precedes, if_neg (hnot hw.1 hp)]
        exact Or.inr hbefore

end Flipped

/-! ## Searches whose check does not fail -/

theorem choose_lt_combinationLimit (d : Nat) : Nat.choose 64 d < BitFlips.combinationLimit := by
  apply Nat.lt_of_le_of_lt (Nat.choose_le_middle d 64)
  rw [← Combination.binomial_eq_choose]
  decide

@[simp] theorem announce_outcome (strategy : String) (r : Report) :
    (announce strategy r).outcome = r.outcome := by
  unfold announce
  split <;> rfl

section Total
variable {check : Bytes → Except Fault Bool} {accepts : Bytes → Bool}
  (hcheck : ∀ b, check b = .ok (accepts b))
include hcheck

theorem countDown_outcome (count : Nat) (v : Int) (asked : Nat) :
    (countDown check count v asked).outcome =
      .ok (((List.range count).map fun d : Nat => wrapped (v - d)).find? fun w => accepts (bytes w)) := by
  induction count generalizing v asked with
  | zero => rfl
  | succ count ih =>
      have hrange : (List.range (count + 1)).map (fun d : Nat => wrapped (v - d)) =
          wrapped v :: (List.range count).map fun d : Nat => wrapped (v - 1 - d) := by
        rw [List.range_succ_eq_map, List.map_cons, List.map_map]
        congr 1
        · rw [Int.natCast_zero, Int.sub_zero]
        · refine List.map_congr_left fun d _ => ?_
          simp only [Function.comp_apply, Nat.succ_eq_add_one]
          congr 1
          omega
      rw [hrange, List.find?_cons, countDown, hcheck, bytes_wrapped]
      cases accepts (bytes v) with
      | true => rfl
      | false => exact ih (v - 1) (asked + 1)

theorem linear_outcome {initial : Bytes} (h8 : initial.length = 8) (limit : Int) :
    (linear initial limit check).outcome =
      .ok ((counted initial.toNatLE limit).find? fun v : Nat => accepts (bytes v)) := by
  simp only [linear, value, if_pos h8]
  exact countDown_outcome hcheck limit.toNat initial.toNatLE 0

theorem combinatorial_outcome {initial : Bytes} (h8 : initial.length = 8) {limit : Int}
    (hlimit : 0 ≤ limit) :
    (combinatorial initial limit check).outcome =
      .ok ((flipped initial limit).find? fun v : Nat => accepts (bytes v)) := by
  have hq : BitFlips.obstacle? (flipQuery initial limit check) = none := by
    simp [BitFlips.obstacle?, h8, hlimit]
  have hrun := BitFlips.run_outcome_of_total hq
    (fun d => by rw [h8]; exact choose_lt_combinationLimit d) hcheck
  have hflip (c : Combination) : bytes (flipAll initial c).toNatLE = flipAll initial c :=
    bytes_toNatLE (by simpa using h8)
  have hsame : BitFlips.candidates (flipQuery initial limit check) =
      BitFlips.candidates (flipQuery initial limit fun _ => .ok false) := rfl
  simp only [combinatorial, hrun, flipped, List.find?_map, Function.comp_def, hflip, hsame]
  cases (BitFlips.candidates (flipQuery initial limit fun _ => .ok false)).find? fun c =>
      accepts (flipAll initial c) with
  | none => rfl
  | some c =>
      have hv : value (flipAll initial c) = .ok (flipAll initial c).toNatLE := by
        rw [value, if_pos (by simpa using h8)]
      change Except.map some (value (flipAll initial c)) = _
      rw [hv]
      rfl

/-- A search whose check does not fail is answered by the first accepted value. -/
theorem run_outcome {initial : Bytes} (h8 : initial.length = 8) {bounds : RegisterBounds}
    (hflips : bounds.combinatorial = true → 0 ≤ bounds.maxFlips) :
    (run initial check bounds).outcome =
      .ok ((values initial bounds).find? fun v : Nat => accepts (bytes v)) := by
  have hlinear := linear_outcome hcheck h8 bounds.maxCountdown
  rw [run, if_neg (by simpa using h8), values, List.find?_append]
  simp only [announce_outcome, hlinear]
  cases hfirst : (counted initial.toNatLE bounds.maxCountdown).find? fun v : Nat => accepts (bytes v) with
  | some v => simp [hlinear, hfirst]
  | none =>
      cases hc : bounds.combinatorial with
      | false => simp [hlinear, hfirst]
      | true =>
          have hsecond := combinatorial_outcome hcheck h8 (hflips hc)
          simp [hsecond]

/-- A search whose check does not fail finds a value within its bounds if there is one that is accepted. A bound
on the flipped bits that is negative stops only a search that comes to them. -/
theorem exists_run_outcome {initial : Bytes} (h8 : initial.length = 8) {bounds : RegisterBounds} {v : Nat}
    (hv : Admissible bounds initial.toNatLE v) (haccepts : accepts (bytes v) = true) :
    ∃ w, (run initial check bounds).outcome = .ok (some w) ∧ Admissible bounds initial.toNatLE w := by
  have hfound {xs : List Nat} (hmem : v ∈ xs) :
      ∃ w, xs.find? (fun x : Nat => accepts (bytes x)) = some w := by
    rw [← Option.isSome_iff_exists, List.find?_isSome]
    exact ⟨v, hmem, haccepts⟩
  obtain ⟨hlt, hnear | ⟨hc, hflips⟩⟩ := hv
  · obtain ⟨w, hw⟩ := hfound (mem_counted.mpr ⟨hlt, hnear⟩)
    have hlinear := linear_outcome hcheck h8 bounds.maxCountdown
    rw [hw] at hlinear
    refine ⟨w, ?_, (mem_counted.mp (List.mem_of_find?_eq_some hw)).imp_right .inl⟩
    rw [run, if_neg (by simpa using h8)]
    simp only [announce_outcome, hlinear]
  · have hlimit : bounds.combinatorial = true → 0 ≤ bounds.maxFlips :=
      fun _ => (Int.natCast_nonneg _).trans hflips
    obtain ⟨w, hw⟩ := hfound ((mem_values h8 hlimit).mpr ⟨hlt, .inr ⟨hc, hflips⟩⟩)
    exact ⟨w, hw ▸ run_outcome hcheck h8 hlimit, (mem_values h8 hlimit).mp (List.mem_of_find?_eq_some hw)⟩

end Total

/-! ## Searches whose check may fail -/

section Partial
variable {check : Bytes → Except Fault Bool} {v : Nat}

theorem countDown_accepted {count asked : Nat} {start : Int}
    (h : (countDown check count start asked).outcome = .ok (some v)) : check (bytes v) = .ok true := by
  induction count generalizing start asked with
  | zero => cases h
  | succ count ih =>
      rw [countDown] at h
      split at h
      · cases h
      · rename_i hc
        cases h
        rwa [bytes_wrapped]
      · exact ih h

theorem linear_accepted {initial : Bytes} {limit : Int}
    (h : (linear initial limit check).outcome = .ok (some v)) : check (bytes v) = .ok true := by
  unfold linear at h
  split at h
  · cases h
  · exact countDown_accepted h

theorem combinatorial_accepted {initial : Bytes} {limit : Int}
    (h : (combinatorial initial limit check).outcome = .ok (some v)) : check (bytes v) = .ok true := by
  have hexplained := BitFlips.run_explained (flipQuery initial limit check)
  unfold combinatorial at h
  simp only at h
  cases hrun : (BitFlips.run (flipQuery initial limit check)).outcome with
  | error f => rw [hrun] at h; cases h
  | ok found =>
      rw [hrun] at h hexplained
      cases found with
      | none => cases h
      | some c =>
          by_cases h8 : (flipAll initial c).length = 8
          · have hv : value (flipAll initial c) = .ok (flipAll initial c).toNatLE := by
              rw [value, if_pos h8]
            change Except.map some (value (flipAll initial c)) = _ at h
            rw [hv] at h
            cases h
            rw [bytes_toNatLE h8]
            exact hexplained
          · have hv : value (flipAll initial c) = .error (.encoding .notEightBytes) := by
              rw [value, if_neg h8]
            change Except.map some (value (flipAll initial c)) = _ at h
            rw [hv] at h
            cases h

/-- Whatever the check does, it has accepted the bytes of an answer. -/
theorem run_accepted {initial : Bytes} {bounds : RegisterBounds}
    (h : (run initial check bounds).outcome = .ok (some v)) : check (bytes v) = .ok true := by
  unfold run at h
  split at h
  · cases h
  · simp only at h
    split at h
    · split at h
      · exact combinatorial_accepted ((announce_outcome _ _).symm.trans h)
      · exact linear_accepted ((announce_outcome _ _).symm.trans h)
    · exact linear_accepted ((announce_outcome _ _).symm.trans h)

end Partial
end MeasuredBoot.RegisterSearch
