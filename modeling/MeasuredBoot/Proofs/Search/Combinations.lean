import Mathlib.Data.List.Perm.Subperm
import Mathlib.Data.Nat.Choose.Basic
import MeasuredBoot.Proofs.Search.FirstAnswer
import MeasuredBoot.Search.Combination

/-!
# The list of all combinations

The increasing lists of `k` values among consecutive ones, listed by their first value, are the reference
for everything that the library does with combinations: counting them, stepping from one to the next,
starting at a number, and searching them. The list holds every combination once and is lexicographically
sorted, so a search through all combinations asks them in that order and leaves none out.
-/
namespace MeasuredBoot.Combination

/-- The increasing lists of `k` values among `count` values from `start` on. -/
def increasing : (k start count : Nat) → List Combination
  | 0, _, _ => [[]]
  | _ + 1, _, 0 => []
  | k + 1, start, count + 1 =>
    (increasing k (start + 1) count).map (start :: ·) ++ increasing (k + 1) (start + 1) count

def combinations (k n : Nat) : List Combination := increasing k 0 n

@[simp] theorem increasing_zero (start count : Nat) : increasing 0 start count = [[]] := by
  cases count <;> rfl

@[simp] theorem increasing_succ_zero (k start : Nat) : increasing (k + 1) start 0 = [] := rfl

theorem increasing_succ_succ (k start count : Nat) :
    increasing (k + 1) start (count + 1) =
      (increasing k (start + 1) count).map (start :: ·) ++ increasing (k + 1) (start + 1) count := rfl

theorem length_increasing (k start count : Nat) :
    (increasing k start count).length = count.choose k := by
  induction count generalizing k start with
  | zero => cases k <;> simp
  | succ count ih =>
      cases k with
      | zero => simp
      | succ k => simp [increasing_succ_succ, ih, Nat.choose_succ_succ]

@[simp] theorem length_combinations (k n : Nat) : (combinations k n).length = n.choose k :=
  length_increasing k 0 n

theorem combinations_of_lt {k n : Nat} (h : n < k) : combinations k n = [] := by
  apply List.eq_nil_of_length_eq_zero
  rw [length_combinations, Nat.choose_eq_zero_of_lt h]

theorem mem_increasing_zero {start count : Nat} {c : Combination} :
    c ∈ increasing 0 start count ↔
      c.length = 0 ∧ c.Pairwise (· < ·) ∧ ∀ i ∈ c, start ≤ i ∧ i < start + count := by
  rw [increasing_zero, List.mem_singleton, List.length_eq_zero_iff]
  constructor
  · intro hnil
    rw [hnil]
    simp
  · exact And.left

theorem mem_increasing {k start count : Nat} {c : Combination} :
    c ∈ increasing k start count ↔
      c.length = k ∧ c.Pairwise (· < ·) ∧ ∀ i ∈ c, start ≤ i ∧ i < start + count := by
  induction count generalizing k start c with
  | zero =>
      cases k with
      | zero => exact mem_increasing_zero
      | succ k =>
          rw [increasing_succ_zero]
          constructor
          · intro hmem
            cases hmem
          · intro ⟨hlen, _, hmem⟩
            obtain ⟨i, rest, rfl⟩ := List.exists_cons_of_length_eq_add_one hlen
            have hi := hmem i (by simp)
            omega
  | succ count ih =>
      cases k with
      | zero => exact mem_increasing_zero
      | succ k =>
          rw [increasing_succ_succ, List.mem_append, List.mem_map, ih]
          constructor
          · rintro (⟨rest, hrest, rfl⟩ | ⟨hlen, hs, hmem⟩)
            · obtain ⟨hlen, hs, hmem⟩ := ih.mp hrest
              refine ⟨by simp [hlen], List.pairwise_cons.mpr ⟨fun i hi => (hmem i hi).1, hs⟩, ?_⟩
              intro i hi
              rcases List.mem_cons.mp hi with rfl | hi
              · omega
              · have := hmem i hi
                omega
            · refine ⟨hlen, hs, fun i hi => ?_⟩
              have := hmem i hi
              omega
          · intro ⟨hlen, hs, hmem⟩
            obtain ⟨i, rest, rfl⟩ := List.exists_cons_of_length_eq_add_one hlen
            have hi := hmem i (by simp)
            have hlt := (List.pairwise_cons.mp hs).1
            by_cases heq : i = start
            · subst heq
              refine Or.inl ⟨rest, ih.mpr ⟨by simpa using hlen, (List.pairwise_cons.mp hs).2, ?_⟩, rfl⟩
              intro j hj
              have := hlt j hj
              have := hmem j (by simp [hj])
              omega
            · refine Or.inr ⟨hlen, hs, fun j hj => ?_⟩
              have := hmem j hj
              rcases List.mem_cons.mp hj with rfl | hj
              · omega
              · have := hlt j hj
                omega

theorem mem_combinations {k n : Nat} {c : Combination} :
    c ∈ combinations k n ↔ c.length = k ∧ c.Pairwise (· < ·) ∧ ∀ i ∈ c, i < n := by
  simp [combinations, mem_increasing]

theorem pairwise_increasing (k start count : Nat) :
    (increasing k start count).Pairwise (· < ·) := by
  induction count generalizing k start with
  | zero => cases k <;> simp
  | succ count ih =>
      cases k with
      | zero => simp
      | succ k =>
          rw [increasing_succ_succ, List.pairwise_append]
          refine ⟨?_, ih _ _, ?_⟩
          · exact List.pairwise_map.mpr ((ih k (start + 1)).imp fun h =>
              List.cons_lt_cons_iff.mpr (Or.inr ⟨rfl, h⟩))
          · intro c hc d hd
            obtain ⟨rest, -, rfl⟩ := List.mem_map.mp hc
            obtain ⟨hlen, -, hmem⟩ := mem_increasing.mp hd
            obtain ⟨i, more, rfl⟩ := List.exists_cons_of_length_eq_add_one hlen
            have hi := (hmem i (by simp)).1
            exact List.cons_lt_cons_iff.mpr (Or.inl (by omega))

theorem pairwise_combinations (k n : Nat) : (combinations k n).Pairwise (· < ·) :=
  pairwise_increasing k 0 n

/-! ## Combinations of several sizes -/

/-- The combinations out of `n` values of `count` sizes from the lowest one on. -/
def between (lowest count n : Nat) : List Combination :=
  (List.range' lowest count).flatMap (combinations · n)

theorem between_succ (lowest count n : Nat) :
    between lowest (count + 1) n = combinations lowest n ++ between (lowest + 1) count n := by
  rw [between, List.range'_succ, List.flatMap_cons, between]

/-- Fewer values come first, then combinations of one size in lexicographic order. -/
def Before (c d : Combination) : Prop := c.length < d.length ∨ c.length = d.length ∧ c < d

theorem Before.asymm {c d : Combination} (h : Before c d) : ¬ Before d c := by
  obtain hlt | ⟨heq, hlex⟩ := h
  · rintro (hgt | ⟨heq, -⟩) <;> omega
  · rintro (hgt | ⟨-, hgt⟩)
    · omega
    · exact List.lt_asymm hlex hgt

theorem mem_between {lowest count n : Nat} {c : Combination} :
    c ∈ between lowest count n ↔
      (lowest ≤ c.length ∧ c.length < lowest + count) ∧ c.Pairwise (· < ·) ∧ ∀ i ∈ c, i < n := by
  simp only [between, List.mem_flatMap, List.mem_range'_1, mem_combinations]
  constructor
  · rintro ⟨k, hk, rfl, hs, hmem⟩
    exact ⟨hk, hs, hmem⟩
  · rintro ⟨hk, hs, hmem⟩
    exact ⟨c.length, hk, rfl, hs, hmem⟩

theorem pairwise_between (lowest count n : Nat) : (between lowest count n).Pairwise Before := by
  refine List.pairwise_flatMap.mpr ⟨?_, ?_⟩
  · intro k _
    apply (pairwise_combinations k n).imp_of_mem
    intro c d hc hd hlt
    exact Or.inr ⟨(mem_combinations.mp hc).1.trans (mem_combinations.mp hd).1.symm, hlt⟩
  · apply (List.pairwise_lt_range' 1).imp
    intro k l hlt c hc d hd
    have hc := (mem_combinations.mp hc).1
    have hd := (mem_combinations.mp hd).1
    exact Or.inl (by omega)

theorem length_le_of_forall_lt {n : Nat} {c : Combination} (hs : c.Pairwise (· < ·))
    (hmem : ∀ i ∈ c, i < n) : c.length ≤ n := by
  have hn : c.Nodup := hs.imp Nat.ne_of_lt
  have hsub : c ⊆ List.range n := fun i hi => List.mem_range.mpr (hmem i hi)
  simpa using (List.subperm_of_subset hn hsub).length_le

/-! ## Counting -/

theorem foldl_factors (n k : Nat) (h : k ≤ n) :
    (List.range k).foldl (fun c i => c * (n - i) / (i + 1)) 1 = n.choose k := by
  induction k with
  | zero => simp
  | succ k ih =>
      rw [List.range_succ, List.foldl_append, ih (by omega)]
      simp only [List.foldl_cons, List.foldl_nil]
      rw [← Nat.choose_succ_right_eq]
      exact Nat.mul_div_cancel _ (Nat.succ_pos k)

theorem binomial_eq_choose (n k : Nat) : binomial n k = n.choose k := by
  unfold binomial
  split
  · rename_i h
    rw [Nat.choose_eq_zero_of_lt h]
  · rename_i h
    rw [foldl_factors n _ (by omega)]
    rcases Nat.le_total k (n - k) with hk | hk
    · rw [Nat.min_eq_left hk]
    · rw [Nat.min_eq_right hk, Nat.choose_symm (by omega)]

/-! ## Stepping through the list -/

theorem map_toNat_run (start count : Nat) : (run start count).map Int.toNat = List.range' start count := by
  induction count generalizing start with
  | zero => rfl
  | succ count ih =>
      have h := ih (start + 1)
      simp only [run, List.map_cons, Int.toNat_natCast, List.range'_succ]
      rw [← h]
      rfl

/-- Stepping, without integers: the last value that can grow does, and those after it follow at once. -/
theorem next_cons (n v : Nat) (rest : Combination) :
    next n (v :: rest) =
      match next n rest with
      | some more => some (v :: more)
      | none =>
        if v + rest.length + 1 < n then some (List.range' (v + 1) (rest.length + 1)) else none := by
  unfold next
  rw [List.map_cons, nextOf]
  cases nextOf n (rest.map Int.ofNat) with
  | some more => simp
  | none =>
      have hr : (run ((v : Int) + 1) (rest.length + 1)).map Int.toNat =
          List.range' (v + 1) (rest.length + 1) := by
        simpa using map_toNat_run (v + 1) (rest.length + 1)
      by_cases h : v + rest.length + 1 < n
      · have hi : (v : Int) < n - (rest.length + 1) := by omega
        simp only [List.length_map, Int.ofNat_eq_natCast, hi, h, if_true, Option.map_some,
          Option.map_none, hr]
      · have hi : ¬ (v : Int) < n - (rest.length + 1) := by omega
        simp [hi, h]

/-- Lists of combinations each of which is the one after the one before it, up to the last of all. -/
inductive Follows (n : Nat) : List Combination → Prop
  | last {c : Combination} : next n c = none → Follows n [c]
  | step {c d : Combination} {rest : List Combination} :
      next n c = some d → Follows n (d :: rest) → Follows n (c :: d :: rest)

theorem Follows.drop {n : Nat} {cs : List Combination} (h : Follows n cs) {i : Nat}
    (hi : i < cs.length) : Follows n (cs.drop i) := by
  induction i generalizing cs with
  | zero => exact h
  | succ i ih =>
      cases h with
      | last _ => simp at hi
      | step _ hrest => exact ih hrest (by simpa using hi)

theorem exists_increasing_eq_cons {k count : Nat} (h : k ≤ count) (start : Nat) :
    ∃ rest, increasing k start count = List.range' start k :: rest := by
  induction count generalizing k start with
  | zero =>
      obtain rfl : k = 0 := by omega
      exact ⟨[], rfl⟩
  | succ count ih =>
      cases k with
      | zero => exact ⟨[], rfl⟩
      | succ k =>
          obtain ⟨rest, hrest⟩ := ih (k := k) (by omega) (start + 1)
          rw [increasing_succ_succ, hrest, List.range'_succ]
          exact ⟨_, rfl⟩

/-- With a smaller value in front, the step from the last combination goes to what follows them all. -/
theorem Follows.map_cons_append {n v k : Nat} {cs after : List Combination} (h : Follows n cs)
    (hlen : ∀ c ∈ cs, c.length = k)
    (hafter : if v + k + 1 < n then Follows n after ∧ after.head? = some (List.range' (v + 1) (k + 1))
      else after = []) :
    Follows n (cs.map (v :: ·) ++ after) := by
  induction h with
  | @last c hc =>
      have hk := hlen c (by simp)
      split at hafter
      · rename_i hlt
        obtain ⟨hf, hhead⟩ := hafter
        cases after with
        | nil => simp at hhead
        | cons d rest =>
            obtain rfl : d = List.range' (v + 1) (k + 1) := by simpa using hhead
            refine Follows.step ?_ hf
            simp [next_cons, hc, hk, hlt]
      · rename_i hlt
        subst hafter
        apply Follows.last
        simp [next_cons, hc, hk, hlt]
  | @step c d rest hc _ ih =>
      refine Follows.step ?_ (ih fun e he => hlen e (by simp [he]))
      simp [next_cons, hc]

theorem follows_increasing {k count : Nat} (h : k ≤ count) (start : Nat) :
    Follows (start + count) (increasing k start count) := by
  induction count generalizing k start with
  | zero =>
      obtain rfl : k = 0 := by omega
      exact .last rfl
  | succ count ih =>
      cases k with
      | zero => exact .last rfl
      | succ k =>
          have hn : start + (count + 1) = start + 1 + count := by omega
          rw [increasing_succ_succ, hn]
          refine (ih (k := k) (by omega) _).map_cons_append (fun c hc => (mem_increasing.mp hc).1) ?_
          split
          · rename_i hlt
            have hle : k + 1 ≤ count := by omega
            refine ⟨ih hle _, ?_⟩
            obtain ⟨rest, hrest⟩ := exists_increasing_eq_cons hle (start + 1)
            rw [hrest, List.head?_cons]
          · apply List.eq_nil_of_length_eq_zero
            rw [length_increasing, Nat.choose_eq_zero_of_lt (by omega)]

theorem follows_combinations {k n : Nat} (h : k ≤ n) : Follows n (combinations k n) := by
  simpa [combinations] using follows_increasing h 0

/-! ## Searching the list -/

section Search
variable {m : Type → Type} [Monad m] [LawfulMonad m] {α β : Type}

theorem foldlM_of_final {isFinal : β → Bool} (step : β → Combination → m β) (cs : List Combination)
    {b : β} (h : isFinal b = true) :
    cs.foldlM (fun b c => if isFinal b then pure b else step b c) b = pure b := by
  induction cs with
  | nil => rfl
  | cons c rest ih => rw [List.foldlM_cons, if_pos h, pure_bind, ih]

theorem foldUntilFrom_eq_foldlM {n : Nat} {c : Combination} {rest : List Combination}
    (h : Follows n (c :: rest)) (isFinal : β → Bool) (step : β → Combination → m β) (count : Nat)
    (b : β) :
    foldUntilFrom n isFinal step count c b =
      ((c :: rest).take count).foldlM (fun b c => if isFinal b then pure b else step b c) b := by
  induction count generalizing c rest b with
  | zero => rfl
  | succ count ih =>
      rw [foldUntilFrom, List.take_succ_cons, List.foldlM_cons]
      by_cases hb : isFinal b = true
      · rw [if_pos hb, if_pos hb, pure_bind, foldlM_of_final step _ hb]
      · rw [if_neg hb, if_neg hb]
        congr 1
        funext d
        cases h with
        | last hc => simp [hc]
        | step hc hrest => simp only [hc, ih hrest]

/-- A fold through all combinations takes them in lexicographic order, and no more of them once its
result is final. -/
theorem foldUntil_eq_foldlM (k n : Nat) (isFinal : β → Bool) (step : β → Combination → m β) (b : β) :
    foldUntil k n isFinal step b =
      (combinations k n).foldlM (fun b c => if isFinal b then pure b else step b c) b := by
  unfold foldUntil
  split
  · rename_i h
    rw [combinations_of_lt h]
    rfl
  · rename_i h
    obtain ⟨rest, hrest⟩ := exists_increasing_eq_cons (Nat.le_of_not_lt h) 0
    have hf := follows_combinations (Nat.le_of_not_lt h)
    rw [combinations, hrest] at hf
    have hlen : binomial n k = (List.range' 0 k :: rest).length := by
      rw [← hrest, length_increasing, binomial_eq_choose]
    rw [combinations, hrest, List.range_eq_range', foldUntilFrom_eq_foldlM hf, hlen, List.take_length]

theorem foldlM_eq_firstAnswer (ask : Combination → m (Option α)) (cs : List Combination) :
    cs.foldlM (fun found c => if found.isSome then pure found else ask c) none = firstAnswer ask cs := by
  induction cs with
  | nil => rfl
  | cons c rest ih =>
      rw [List.foldlM_cons, firstAnswer_cons]
      simp only [Option.isSome_none, Bool.false_eq_true, if_false]
      congr 1
      funext found
      cases found with
      | none => exact ih
      | some a => exact foldlM_of_final (fun _ c => ask c) rest rfl

theorem first_eq_firstAnswer (k n : Nat) (ask : Combination → m (Option α)) :
    first k n ask = firstAnswer ask (combinations k n) := by
  rw [first, foldUntil_eq_foldlM, foldlM_eq_firstAnswer]

end Search

/-! ## Numbering the list -/

theorem unrankFrom_eq_getElem (k start count : Nat) {id : Nat}
    (h : id < (increasing k start count).length) :
    unrankFrom (start + count) k start id = (increasing k start count)[id] := by
  induction k generalizing start count id with
  | zero => simp [unrankFrom]
  | succ k ihk =>
      rw [unrankFrom, Nat.add_sub_cancel_left]
      induction count generalizing start id with
      | zero => simp at h
      | succ count ihc =>
          have hsub : start + (count + 1) - start - 1 = count := by omega
          have hn : start + (count + 1) = start + 1 + count := by omega
          have hlen : (increasing k (start + 1) count).length = binomial count k := by
            rw [length_increasing, binomial_eq_choose]
          simp only [firstValue, hsub, Nat.add_sub_cancel, increasing_succ_succ]
          by_cases hid : id < binomial count k
          · rw [if_pos hid, List.getElem_append_left (by simpa [hlen] using hid), List.getElem_map, hn,
                ihk _ _ (by rwa [hlen])]
          · rw [if_neg hid, List.getElem_append_right (by simpa [hlen] using Nat.le_of_not_lt hid), hn]
            simp only [List.length_map, hlen]
            exact ihc _ _

theorem unrankFrom_zero_eq_getElem {k n id : Nat} (h : id < (combinations k n).length) :
    unrankFrom n k 0 id = (combinations k n)[id] := by
  have := unrankFrom_eq_getElem k 0 n h
  rwa [Nat.zero_add] at this

end MeasuredBoot.Combination
