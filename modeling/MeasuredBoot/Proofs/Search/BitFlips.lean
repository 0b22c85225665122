import MeasuredBoot.Proofs.Search.Combinations
import MeasuredBoot.Search.BitFlips

/-!
# What flipping bits finds

A search by flipping bits is a search through one list: the combinations of the lowest distance, then
those of the next one, and so on. The chunks of one distance cover its combinations, and a chunk after one
with an answer adds nothing, so the answer is the first accepted combination however many workers share
the work. A check that fails only for some data makes the search less predictable, but what the search
finds is still accepted, and a fault that it passes on is one of the check.
-/
namespace MeasuredBoot.BitFlips
open Combination (combinations flipAll Follows)

/-! ## Searches whose check does not fail -/

section Total
variable {check : Bytes → Except Fault Bool} {accepts : Bytes → Bool}

/-- What a worker found, given the first accepted combination of its chunk. -/
def Finding.ofFirst : Option Combination → Finding
  | some c => .found c
  | none => .exhausted

theorem scan_eq_find? (initial : Bytes) (hcheck : ∀ b, check b = .ok (accepts b)) {n : Nat}
    {c : Combination} {rest : List Combination} (h : Follows n (c :: rest)) (count asked : Nat) :
    (scan initial check n count asked c).1 =
      .ofFirst (((c :: rest).take count).find? fun c => accepts (flipAll initial c)) := by
  induction count generalizing c rest asked with
  | zero => rfl
  | succ count ih =>
      rw [scan, hcheck, List.take_succ_cons, List.find?_cons]
      cases accepts (flipAll initial c) with
      | true => rfl
      | false =>
          cases h with
          | last hc =>
              rw [hc, List.take_nil]
              rfl
          | step hc hrest =>
              rw [hc]
              exact ih hrest (asked + 1)

def slice (cs : List Combination) (bounds : Nat × Nat) : List Combination :=
  (cs.drop bounds.1).take (bounds.2 - bounds.1)

theorem tryChunk_of_total {q : Query} (hcheck : ∀ b, q.check b = .ok (accepts b)) {distance n : Nat}
    {p : Progress} (chunk : Nat) {bounds : Nat × Nat} (hd : distance ≤ n)
    (hb : bounds.1 < (combinations distance n).length) :
    (tryChunk q distance n p chunk bounds).found =
        p.found.or ((slice (combinations distance n) bounds).find? fun c =>
          accepts (flipAll q.initial c)) ∧
      (tryChunk q distance n p chunk bounds).faults = p.faults := by
  cases hp : p.found with
  | some c => simp [tryChunk, hp]
  | none =>
      have hf := (Combination.follows_combinations hd).drop hb
      rw [List.drop_eq_getElem_cons hb] at hf
      have hscan := scan_eq_find? q.initial hcheck hf (bounds.2 - bounds.1) p.asked
      rw [← List.drop_eq_getElem_cons hb, ← Combination.unrankFrom_zero_eq_getElem hb] at hscan
      rw [← slice] at hscan
      obtain ⟨asked, hasked⟩ : ∃ asked, scan q.initial q.check n (bounds.2 - bounds.1) p.asked
          (Combination.unrankFrom n distance 0 bounds.1) =
            (.ofFirst ((slice (combinations distance n) bounds).find? fun c =>
              accepts (flipAll q.initial c)), asked) := ⟨_, Prod.ext hscan rfl⟩
      simp only [tryChunk, hp, Option.isSome_none, Bool.false_eq_true, if_false, Option.none_or, hasked]
      cases (slice (combinations distance n) bounds).find? fun c => accepts (flipAll q.initial c) with
      | none => exact ⟨rfl, rfl⟩
      | some c => exact ⟨rfl, rfl⟩

theorem foldl_tryChunk_of_total {q : Query} (hcheck : ∀ b, q.check b = .ok (accepts b))
    {distance n : Nat} (hd : distance ≤ n) (bounds : List ((Nat × Nat) × Nat))
    (hb : ∀ b ∈ bounds, b.1.1 < (combinations distance n).length) (p : Progress) :
    (bounds.foldl (fun p (b, i) => tryChunk q distance n p i b) p).found =
        p.found.or (((bounds.map Prod.fst).flatMap (slice (combinations distance n))).find? fun c =>
          accepts (flipAll q.initial c)) ∧
      (bounds.foldl (fun p (b, i) => tryChunk q distance n p i b) p).faults = p.faults := by
  induction bounds generalizing p with
  | nil => simp
  | cons b bounds ih =>
      obtain ⟨hfound, hfaults⟩ := tryChunk_of_total (p := p) hcheck b.2 hd (hb b (by simp))
      obtain ⟨ihfound, ihfaults⟩ := ih (fun c hc => hb c (by simp [hc]))
        (tryChunk q distance n p b.2 b.1)
      refine ⟨?_, ihfaults.trans hfaults⟩
      rw [List.foldl_cons, ihfound, hfound, List.map_cons, List.flatMap_cons, List.find?_append,
        Option.or_assoc]

/-! ### Chunks -/

theorem take_mul_eq_flatMap (xs : List Combination) (width count : Nat) :
    (List.range count).flatMap (fun i => slice xs (i * width, (i + 1) * width)) =
      xs.take (count * width) := by
  induction count with
  | zero => simp
  | succ count ih =>
      have hwidth : (count + 1) * width - count * width = width := by
        rw [Nat.succ_mul, Nat.add_sub_cancel_left]
      rw [List.range_succ, List.flatMap_append, ih, List.flatMap_singleton, slice, hwidth, Nat.succ_mul,
        List.take_add]

/-- The chunks cover all combinations, each once and in order. -/
theorem flatMap_slice_chunks (xs : List Combination) {workers : Nat} (h : 0 < workers) :
    (chunks xs.length workers).flatMap (slice xs) = xs := by
  obtain ⟨w, rfl⟩ : ∃ w, workers = w + 1 := ⟨workers - 1, by omega⟩
  have hinit : (List.range w).flatMap (fun i => slice xs (i * (xs.length / (w + 1)),
      if i + 1 = w + 1 then xs.length else (i + 1) * (xs.length / (w + 1)))) =
        xs.take (w * (xs.length / (w + 1))) := by
    rw [← take_mul_eq_flatMap, List.flatMap_def, List.flatMap_def]
    refine congrArg List.flatten (List.map_congr_left fun i hi => ?_)
    have := List.mem_range.mp hi
    rw [if_neg (by omega)]
  have hlast : slice xs (w * (xs.length / (w + 1)), xs.length) = xs.drop (w * (xs.length / (w + 1))) :=
    List.take_of_length_le (by rw [List.length_drop])
  rw [chunks, List.flatMap_map, List.range_succ, List.flatMap_append, hinit, List.flatMap_singleton,
    if_pos rfl, hlast, List.take_append_drop]

theorem fst_lt_of_mem_chunks {total workers : Nat} (h : workers ≤ total) {b : Nat × Nat}
    (hb : b ∈ chunks total workers) : b.1 < total := by
  obtain ⟨i, hi, rfl⟩ := List.mem_map.mp hb
  have hi := List.mem_range.mp hi
  have hq : 0 < total / workers := Nat.div_pos h (by omega)
  calc i * (total / workers) < workers * (total / workers) := Nat.mul_lt_mul_of_pos_right hi hq
    _ ≤ total := Nat.mul_div_le total workers

theorem workerCount_pos (workers : Int) (total : Nat) : 0 < workerCount workers total := by
  unfold workerCount
  omega

theorem workerCount_le (workers : Int) {total : Nat} (h : 0 < total) :
    workerCount workers total ≤ total := by
  have := Nat.div_le_self total combinationsPerWorker
  unfold workerCount
  omega

/-! ### Distances -/

def candidates (q : Query) : List Combination :=
  let n := 8 * q.initial.length
  let lowest := q.lowest.toNat
  Combination.between lowest (min q.highest.toNat n + 1 - lowest) n

theorem mem_candidates {q : Query} {c : Combination} :
    c ∈ candidates q ↔ q.lowest.toNat ≤ c.length ∧ c.length ≤ q.highest.toNat ∧
      c.Pairwise (· < ·) ∧ ∀ i ∈ c, i < 8 * q.initial.length := by
  rw [candidates, Combination.mem_between]
  constructor
  · rintro ⟨⟨hlow, hhigh⟩, hs, hmem⟩
    exact ⟨hlow, by omega, hs, hmem⟩
  · rintro ⟨hlow, hhigh, hs, hmem⟩
    have := Combination.length_le_of_forall_lt hs hmem
    exact ⟨⟨hlow, by omega⟩, hs, hmem⟩

theorem pairwise_candidates (q : Query) : (candidates q).Pairwise Combination.Before :=
  Combination.pairwise_between _ _ _

/-- A search has come to a distance: nothing nearer is accepted, and `count` distances are left to try. -/
structure Pending (q : Query) (accepts : Bytes → Bool) (count distance : Nat) : Prop where
  lowest : q.lowest.toNat ≤ distance
  highest : distance + count ≤ q.highest.toNat + 1
  fits : distance + count ≤ 8 * q.initial.length + 1
  passed : ∀ c ∈ candidates q, c.length < distance → accepts (flipAll q.initial c) = false
  answer : ((candidates q).find? fun c => accepts (flipAll q.initial c)) =
    (Combination.between distance count (8 * q.initial.length)).find? fun c =>
      accepts (flipAll q.initial c)

theorem Pending.answer_of_zero {q : Query} {distance : Nat} (h : Pending q accepts 0 distance) :
    ((candidates q).find? fun c => accepts (flipAll q.initial c)) = none := by
  rw [h.answer]
  rfl

theorem Pending.answer_of_find? {q : Query} {count distance : Nat} {c : Combination}
    (h : Pending q accepts (count + 1) distance)
    (hc : ((combinations distance (8 * q.initial.length)).find? fun c =>
      accepts (flipAll q.initial c)) = some c) :
    ((candidates q).find? fun c => accepts (flipAll q.initial c)) = some c := by
  rw [h.answer, Combination.between_succ, List.find?_append, hc, Option.some_or]

theorem Pending.next {q : Query} {count distance : Nat} (h : Pending q accepts (count + 1) distance)
    (hnone : ((combinations distance (8 * q.initial.length)).find? fun c =>
      accepts (flipAll q.initial c)) = none) : Pending q accepts count (distance + 1) where
  lowest := Nat.le_succ_of_le h.lowest
  highest := by
    have := h.highest
    omega
  fits := by
    have := h.fits
    omega
  passed c hc hshort := by
    by_cases heq : c.length = distance
    · have hmem := (mem_candidates.mp hc).2.2
      have hcomb := Combination.mem_combinations.mpr ⟨heq, hmem⟩
      simpa using List.find?_eq_none.mp hnone c hcomb
    · exact h.passed c hc (by omega)
  answer := by
    rw [h.answer, Combination.between_succ, List.find?_append, hnone, Option.none_or]

theorem tryDistances_of_pending {q : Query} (hcheck : ∀ b, q.check b = .ok (accepts b))
    (hlimit : ∀ d, q.lowest.toNat ≤ d → d ≤ q.highest.toNat →
      (∀ c ∈ candidates q, c.length < d → accepts (flipAll q.initial c) = false) →
        (8 * q.initial.length).choose d < combinationLimit)
    {count distance : Nat} (h : Pending q accepts count distance) {r : Report}
    (hr : r.outcome = .ok none) :
    (tryDistances q (8 * q.initial.length) count distance r).outcome =
      .ok ((candidates q).find? fun c => accepts (flipAll q.initial c)) := by
  induction count generalizing distance r with
  | zero => rw [h.answer_of_zero, tryDistances, hr]
  | succ count ih =>
      have hd : distance ≤ 8 * q.initial.length := by
        have := h.fits
        omega
      have htotal : Combination.binomial (8 * q.initial.length) distance =
          (combinations distance (8 * q.initial.length)).length := by
        rw [Combination.binomial_eq_choose, Combination.length_combinations]
      have hpos : 0 < (combinations distance (8 * q.initial.length)).length := by
        rw [Combination.length_combinations]
        exact Nat.choose_pos hd
      have hworkers := workerCount_le q.workers hpos
      obtain ⟨hfound, hfaults⟩ := foldl_tryChunk_of_total hcheck hd
        ((chunks (combinations distance (8 * q.initial.length)).length
          (workerCount q.workers (combinations distance (8 * q.initial.length)).length)).zipIdx)
        (fun b hb => fst_lt_of_mem_chunks hworkers (List.fst_mem_of_mem_zipIdx hb)) {}
      rw [List.zipIdx_map_fst, flatMap_slice_chunks _ (workerCount_pos _ _)] at hfound
      simp only [Option.none_or] at hfound
      have hsmall : ¬ combinationLimit ≤ (combinations distance (8 * q.initial.length)).length := by
        have := h.highest
        rw [Combination.length_combinations]
        exact Nat.not_le.mpr (hlimit distance h.lowest (by omega) h.passed)
      rw [tryDistances]
      simp only [htotal, if_neg hsmall, hfaults, List.isEmpty_nil, Bool.not_true, Bool.false_eq_true,
        if_false, hfound]
      cases hfirst : (combinations distance (8 * q.initial.length)).find? fun c =>
          accepts (flipAll q.initial c) with
      | some c => rw [h.answer_of_find? hfirst]
      | none => exact ih (h.next hfirst) hr

theorem distances_of_no_obstacle {q : Query} (h : obstacle? q = none) :
    0 ≤ q.lowest ∧ q.lowest ≤ q.highest ∧ q.lowest.toNat ≤ 8 * q.initial.length := by
  unfold obstacle? at h
  simp only at h
  split at h
  · cases h
  · split at h
    · cases h
    · split at h
      · cases h
      · omega

theorem candidates_of_zero {q : Query} (h : q.lowest = 0) :
    candidates q = [] :: Combination.between 1 (min q.highest.toNat (8 * q.initial.length))
      (8 * q.initial.length) := by
  rw [candidates, h]
  simp [Combination.between, List.range'_succ, combinations]

theorem pending_first {q : Query} (hq : obstacle? q = none)
    (hzero : q.lowest = 0 → accepts q.initial = false) :
    Pending q accepts (min q.highest.toNat (8 * q.initial.length) + 1 - max q.lowest.toNat 1)
      (max q.lowest.toNat 1) := by
  obtain ⟨hlow, hhigh, hn⟩ := distances_of_no_obstacle hq
  refine ⟨by omega, by omega, by omega, ?_, ?_⟩
  · intro c hc hshort
    have hmin := (mem_candidates.mp hc).1
    have hnil : c = [] := List.length_eq_zero_iff.mp (by omega)
    rw [hnil]
    exact hzero (by omega)
  · by_cases h0 : q.lowest = 0
    · have hinitial : accepts (flipAll q.initial []) = false := hzero h0
      rw [candidates_of_zero h0, List.find?_cons, hinitial, h0]
      rfl
    · have hmax : max q.lowest.toNat 1 = q.lowest.toNat := by omega
      rw [hmax, candidates]

/-- A query whose check does not fail is answered by the first accepted combination. Only the distances
that the search comes to need few enough combinations. -/
theorem run_outcome_of_reached {q : Query} (hq : obstacle? q = none)
    (hlimit : ∀ d, q.lowest.toNat ≤ d → d ≤ q.highest.toNat →
      (∀ c ∈ candidates q, c.length < d → accepts (flipAll q.initial c) = false) →
        (8 * q.initial.length).choose d < combinationLimit)
    (hcheck : ∀ b, q.check b = .ok (accepts b)) :
    (run q).outcome = .ok ((candidates q).find? fun c => accepts (flipAll q.initial c)) := by
  rw [run, hq]
  by_cases h0 : q.lowest = 0
  · simp only [h0, if_true, hcheck]
    cases haccepts : accepts q.initial with
    | true =>
        have hinitial : accepts (flipAll q.initial []) = true := haccepts
        rw [candidates_of_zero h0, List.find?_cons, hinitial]
    | false =>
        have hpending := pending_first hq fun _ => haccepts
        rw [h0] at hpending
        exact tryDistances_of_pending hcheck hlimit hpending rfl
  · simp only [h0, if_false]
    exact tryDistances_of_pending hcheck hlimit (pending_first hq fun hzero => absurd hzero h0) rfl

theorem run_outcome_of_total {q : Query} (hq : obstacle? q = none)
    (hlimit : ∀ d, (8 * q.initial.length).choose d < combinationLimit)
    (hcheck : ∀ b, q.check b = .ok (accepts b)) :
    (run q).outcome = .ok ((candidates q).find? fun c => accepts (flipAll q.initial c)) :=
  run_outcome_of_reached hq (fun d _ _ _ => hlimit d) hcheck

end Total

/-! ## Searches whose check may fail -/

section Partial
variable {q : Query}

theorem scan_sound {initial : Bytes} {check : Bytes → Except Fault Bool} {n count asked k : Nat}
    {c d : Combination} (h : scan initial check n count asked c = (.found d, k)) :
    check (flipAll initial d) = .ok true := by
  induction count generalizing c asked with
  | zero => cases h
  | succ count ih =>
      rw [scan] at h
      split at h
      · cases h
      · rename_i hc
        cases h
        exact hc
      · split at h
        · exact ih h
        · cases h

/-- What a search has found is accepted. -/
def Progress.Sound (q : Query) (p : Progress) : Prop :=
  ∀ c, p.found = some c → q.check (flipAll q.initial c) = .ok true

theorem Progress.Sound.tryChunk {p : Progress} (h : p.Sound q) (distance n chunk : Nat)
    (bounds : Nat × Nat) : (tryChunk q distance n p chunk bounds).Sound q := by
  unfold BitFlips.tryChunk
  split
  · exact h
  · simp only
    split
    · rename_i c asked hscan
      rintro d ⟨⟩
      exact scan_sound hscan
    · exact h
    · exact h

theorem Progress.Sound.foldl {p : Progress} (h : p.Sound q) (distance n : Nat)
    (bounds : List ((Nat × Nat) × Nat)) :
    (bounds.foldl (fun p (b, i) => BitFlips.tryChunk q distance n p i b) p).Sound q := by
  induction bounds generalizing p with
  | nil => exact h
  | cons b bounds ih => exact ih (h.tryChunk distance n b.2 b.1)

/-- An answer is accepted, and a fault is about the search as a whole or comes from the check. -/
def Explained (q : Query) : Except Fault (Option Combination) → Prop
  | .ok none => True
  | .ok (some c) => q.check (flipAll q.initial c) = .ok true
  | .error f => obstacle? q = some f ∨ f = .search .tooManyCombinations ∨
      (∃ faults, f = .search (.workers faults)) ∨ ∃ b, q.check b = .error f

theorem tryDistances_explained (n count distance : Nat) {r : Report} (hr : r.outcome = .ok none) :
    Explained q (tryDistances q n count distance r).outcome := by
  induction count generalizing distance r with
  | zero =>
      rw [tryDistances, hr]
      trivial
  | succ count ih =>
      rw [tryDistances]
      split
      · exact Or.inr (Or.inl rfl)
      · simp only
        split
        · exact Or.inr (Or.inr (Or.inl ⟨_, rfl⟩))
        · split
          · rename_i c hc
            refine Progress.Sound.foldl ?_ distance n _ c hc
            rintro d ⟨⟩
          · exact ih (distance + 1) hr

theorem run_explained (q : Query) : Explained q (run q).outcome := by
  unfold run
  split
  · rename_i f hf
    exact Or.inl hf
  · simp only
    split
    · split
      · rename_i f hf
        exact Or.inr (Or.inr (Or.inr ⟨_, hf⟩))
      · rename_i hc
        exact hc
      · exact tryDistances_explained _ _ _ rfl
    · exact tryDistances_explained _ _ _ rfl

end Partial

end MeasuredBoot.BitFlips
