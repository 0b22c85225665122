import MeasuredBoot.Proofs.Runs
import MeasuredBoot.Proofs.Search.Combinations

/-!
# Numbers and intervals of combinations

Counting combinations multiplies as many factors as the smaller of the chosen and the other values, and is refused
where these are too many. Within that limit the number of a combination is its place in the list of all, the number
leads back to the combination, and the combinations between two numbers are a slice of the list. The search for the
value at a place has no bound of its own. It is said as a relation as well, in which every count must be had, and it
always ends at the value in the list.
-/
namespace MeasuredBoot.Combination
variable {k n start count value id found left i : Nat} {c : Combination}

/-! ## Counts within the limit -/

theorem choose_of_le (h : min k (n - k) ≤ maxFactors) : choose n k = .ok (n.choose k) := by
  have hsigned : ¬ ((n : Int) < 0 ∨ (k : Int) < 0) := by omega
  have hfew : ¬ ((k : Int) ≤ n ∧ maxFactors < min (k : Int).toNat ((n : Int) - k).toNat) := by omega
  rw [choose, if_neg hsigned, if_neg hfew, Int.toNat_natCast, Int.toNat_natCast, binomial_eq_choose]

theorem choose_of_lt (h : maxFactors < min k (n - k)) : choose n k = .error (.argument .tooManyFactors) := by
  have hsigned : ¬ ((n : Int) < 0 ∨ (k : Int) < 0) := by omega
  have hmany : (k : Int) ≤ n ∧ maxFactors < min (k : Int).toNat ((n : Int) - k).toNat := by omega
  rw [choose, if_neg hsigned, if_pos hmany]

/-- Differences of numbers are counted like numbers. -/
theorem choose_eq {x y : Int} (hx : x = n) (hy : y = k) (h : min k (n - k) ≤ maxFactors) :
    choose x y = .ok (n.choose k) := by
  rw [hx, hy, choose_of_le h]

/-! ## Places in the list -/

theorem getElem?_increasing_zero (h : (increasing 0 start count)[i]? = some c) : i = 0 ∧ c = [] := by
  rw [increasing_zero, List.getElem?_singleton] at h
  split at h
  · exact ⟨‹_›, (Option.some.inj h).symm⟩
  · cases h

/-- A combination begins with the lowest value, or stands behind all that do. -/
theorem getElem?_increasing_succ (h : (increasing (k + 1) start (count + 1))[i]? = some c) :
    (∃ rest, c = start :: rest ∧ i < count.choose k ∧ (increasing k (start + 1) count)[i]? = some rest) ∨
    (count.choose k ≤ i ∧ (increasing (k + 1) (start + 1) count)[i - count.choose k]? = some c) := by
  rw [increasing_succ_succ, List.getElem?_append, List.length_map, length_increasing] at h
  split at h
  · rename_i hlt
    rw [List.getElem?_map] at h
    obtain ⟨rest, hrest, hc⟩ := Option.map_eq_some_iff.mp h
    exact Or.inl ⟨rest, hc.symm, hlt, hrest⟩
  · rename_i hle
    exact Or.inr ⟨Nat.le_of_not_lt hle, h⟩

theorem Follows.next_eq {cs : List Combination} (h : Follows n cs) (hi : cs[i]? = some c) :
    next n c = cs[i + 1]? := by
  induction h generalizing i with
  | last hlast =>
      cases i with
      | zero =>
          obtain rfl := Option.some.inj hi
          exact hlast
      | succ i => cases hi
  | step hnext _ ih =>
      cases i with
      | zero =>
          obtain rfl := Option.some.inj hi
          exact hnext
      | succ i => exact ih hi

/-- Stepping leads from each combination to the one behind it, and from the last one nowhere. -/
theorem next_eq_getElem? (h : (combinations k n)[i]? = some c) : next n c = (combinations k n)[i + 1]? := by
  by_cases hk : k ≤ n
  · exact (follows_combinations hk).next_eq h
  · rw [combinations_of_lt (Nat.lt_of_not_le hk)] at h
    cases h

/-! ## The number of a combination -/

/-- A combination whose first value is higher than it could be has the same number behind a lower value, and all
combinations that begin with the values between them besides. -/
theorem rankFrom_of_later {m low high r : Int} {v : Int} {rest : List Int} {all fewer : Nat}
    (hall : choose (m - low - 1) (v :: rest).length = .ok all)
    (hfewer : choose (m - high - 1) (v :: rest).length = .ok fewer)
    (h : rankFrom m high (v :: rest) = .ok r) : rankFrom m low (v :: rest) = .ok (all - fewer + r) := by
  rw [rankFrom, hfewer, ok_bind] at h
  obtain ⟨behind, hbehind, h⟩ := bind_eq_ok_iff.mp h
  obtain ⟨tail, htail, h⟩ := bind_eq_ok_iff.mp h
  have hr : (fewer : Int) - behind + tail = r := Except.ok.inj h
  rw [rankFrom, hall, ok_bind, hbehind, ok_bind, htail, ok_bind]
  congr 1
  omega

theorem rankFrom_increasing {m low : Int} (hm : m = start + count) (hlow : low + 1 = start)
    (hlimit : min k (count - k) ≤ maxFactors) (h : (increasing k start count)[i]? = some c) :
    rankFrom m low (c.map Int.ofNat) = .ok i := by
  induction count generalizing k start i c low with
  | zero =>
      cases k with
      | zero =>
          obtain ⟨rfl, rfl⟩ := getElem?_increasing_zero h
          rfl
      | succ k => cases h
  | succ count ih =>
      cases k with
      | zero =>
          obtain ⟨rfl, rfl⟩ := getElem?_increasing_zero h
          rfl
      | succ k =>
          obtain ⟨rest, rfl, -, hrest⟩ | ⟨hle, hlater⟩ := getElem?_increasing_succ h
          · have hlen := (mem_increasing.mp (List.mem_of_getElem? hrest)).1
            have hsize : (((start :: rest).map Int.ofNat).length : Int) = (k + 1 : Nat) := by
              rw [List.length_map, List.length_cons, hlen]
            have htail : rankFrom m start (rest.map Int.ofNat) = .ok i :=
              ih (by omega) (by omega) (by omega) hrest
            have hall : choose (m - low - 1) ((start :: rest).map Int.ofNat).length =
                .ok ((count + 1).choose (k + 1)) := choose_eq (by omega) hsize hlimit
            have hleft : choose (m - start) ((start :: rest).map Int.ofNat).length =
                .ok ((count + 1).choose (k + 1)) := choose_eq (by omega) hsize hlimit
            rw [List.map_cons, Int.ofNat_eq_natCast] at hall hleft ⊢
            rw [rankFrom, hall, ok_bind, hleft, ok_bind, htail, ok_bind, Int.sub_self, Int.zero_add]
            rfl
          · obtain ⟨hlen, -, -⟩ := mem_increasing.mp (List.mem_of_getElem? hlater)
            obtain ⟨v, rest, rfl⟩ := List.exists_cons_of_length_eq_add_one hlen
            have hsize : (((v :: rest).map Int.ofNat).length : Int) = (k + 1 : Nat) := by
              rw [List.length_map, hlen]
            have hshorter : rankFrom m start ((v :: rest).map Int.ofNat) = .ok (i - count.choose k : Nat) :=
              ih (by omega) (by omega) (by omega) hlater
            have hall : choose (m - low - 1) ((v :: rest).map Int.ofNat).length =
                .ok ((count + 1).choose (k + 1)) := choose_eq (by omega) hsize hlimit
            have hfewer : choose (m - start - 1) ((v :: rest).map Int.ofNat).length =
                .ok (count.choose (k + 1)) := choose_eq (by omega) hsize (by omega)
            rw [List.map_cons] at hall hfewer hshorter ⊢
            rw [rankFrom_of_later hall hfewer hshorter, Nat.choose_succ_succ']
            congr 1
            omega

/-- The number of a combination is its place in the list. -/
theorem rank_of_getElem? (hlimit : min k (n - k) ≤ maxFactors) (h : (combinations k n)[i]? = some c) :
    rank (c.map Int.ofNat) n = .ok i :=
  rankFrom_increasing (by omega) (by omega) hlimit h

/-! ## The combination with a number -/

/-- The search for a value that `k` others follow, by the number of the combination, from a value on and without a
bound. Each value is passed with the combinations that begin with it, and these must be counted without an error. -/
inductive Finds (n k : Nat) : (value id found left : Nat) → Prop
  | here {value id many : Nat} : choose ((n : Int) - value - 1) k = .ok many → id < many →
      Finds n k value id value id
  | later {value id found left many : Nat} : choose ((n : Int) - value - 1) k = .ok many → many ≤ id →
      Finds n k (value + 1) (id - many) found left → Finds n k value id found left

/-- The values of the combination with a number, each found behind the one before it. -/
inductive Unranks (n : Nat) : (k value id : Nat) → Combination → Prop
  | nil {value id : Nat} : Unranks n 0 value id []
  | cons {k value id found left : Nat} {rest : Combination} : Finds n k value id found left →
      Unranks n k (found + 1) left rest → Unranks n (k + 1) value id (found :: rest)

theorem Unranks.later {many : Nat} (hmany : choose ((n : Int) - value - 1) k = .ok many) (hle : many ≤ id)
    (h : Unranks n (k + 1) (value + 1) (id - many) c) : Unranks n (k + 1) value id c := by
  cases h with
  | cons hfinds hrest => exact .cons (.later hmany hle hfinds) hrest

/-- Within the limit, the searches end, and find the combination at the place. -/
theorem unranks_increasing (hn : n = start + count) (hlimit : min k (count - k) ≤ maxFactors)
    (h : (increasing k start count)[i]? = some c) : Unranks n k start i c := by
  induction count generalizing k start i c with
  | zero =>
      cases k with
      | zero =>
          obtain ⟨-, rfl⟩ := getElem?_increasing_zero h
          exact .nil
      | succ k => cases h
  | succ count ih =>
      cases k with
      | zero =>
          obtain ⟨-, rfl⟩ := getElem?_increasing_zero h
          exact .nil
      | succ k =>
          have hmany : choose ((n : Int) - start - 1) k = .ok (count.choose k) :=
            choose_eq (by omega) rfl (by omega)
          obtain ⟨rest, rfl, hlt, hrest⟩ | ⟨hle, hlater⟩ := getElem?_increasing_succ h
          · exact .cons (.here hmany hlt) (ih (by omega) (by omega) hrest)
          · exact Unranks.later hmany hle (ih (by omega) (by omega) hlater)

theorem lt_of_choose {many : Nat} (h : choose ((n : Int) - value - 1) k = .ok many) :
    value < n ∧ binomial (n - value - 1) k = many := by
  have hlt : value < n := by
    by_contra hle
    rw [choose, if_pos (by omega)] at h
    cases h
  have hcast : (n : Int) - value - 1 = ((n - value - 1 : Nat) : Int) := by omega
  rw [hcast] at h
  refine ⟨hlt, ?_⟩
  by_cases hlimit : min k (n - value - 1 - k) ≤ maxFactors
  · rw [choose_of_le hlimit] at h
    rw [binomial_eq_choose, Except.ok.inj h]
  · rw [choose_of_lt (by omega)] at h
    cases h

theorem Finds.firstValue_eq (h : Finds n k value id found left) :
    found < n ∧ firstValue n (k + 1) (n - value) value id = (found, left) := by
  induction h with
  | @here value id many hmany hlt =>
      obtain ⟨hvalue, hcount⟩ := lt_of_choose hmany
      obtain ⟨fuel, hfuel⟩ : ∃ fuel, n - value = fuel + 1 := ⟨n - value - 1, by omega⟩
      rw [hfuel, firstValue, Nat.add_sub_cancel, hcount, if_pos hlt]
      exact ⟨hvalue, rfl⟩
  | @later value id found left many hmany hle _ ih =>
      obtain ⟨hvalue, hcount⟩ := lt_of_choose hmany
      obtain ⟨fuel, hfuel⟩ : ∃ fuel, n - value = fuel + 1 := ⟨n - value - 1, by omega⟩
      have hrest : n - (value + 1) = fuel := by omega
      rw [hrest] at ih
      rw [hfuel, firstValue, Nat.add_sub_cancel, hcount, if_neg (Nat.not_lt.mpr hle)]
      exact ih

theorem Unranks.unrankFrom_eq (h : Unranks n k value id c) : unrankFrom n k value id = c := by
  induction h with
  | nil => rfl
  | @cons _ _ _ found _ _ hfinds _ ih =>
      rw [unrankFrom, hfinds.firstValue_eq.2]
      exact congrArg (found :: ·) ih

theorem unranks_of_getElem? (hlimit : min k (n - k) ≤ maxFactors) (h : (combinations k n)[i]? = some c) :
    Unranks n k 0 i c :=
  unranks_increasing (by omega) hlimit h

theorem unrank_of_getElem? (hlimit : min k (n - k) ≤ maxFactors) (h : (combinations k n)[i]? = some c) :
    unrank i k n = .ok c := by
  have hlt : i < n.choose k := by
    obtain ⟨hlt, -⟩ := List.getElem?_eq_some_iff.mp h
    rwa [length_combinations] at hlt
  have hsigned : ¬ (i : Int) < 0 := by omega
  have hwithin : ¬ ((n.choose k : Nat) : Int) ≤ i := by omega
  rw [unrank, if_neg hsigned]
  simp only [choose_of_le hlimit, ok_bind, if_neg hwithin]
  exact congrArg Except.ok (unranks_of_getElem? hlimit h).unrankFrom_eq

theorem unrank_of_outside (hlimit : min k (n - k) ≤ maxFactors) {id : Int}
    (h : id < 0 ∨ (n.choose k : Int) ≤ id) : unrank id k n = .error (.search (.combinationId id n k)) := by
  rw [unrank]
  split
  · rfl
  · rename_i hsigned
    simp only [choose_of_le hlimit, ok_bind, if_pos (h.resolve_left hsigned)]
    rfl

/-! ## The combinations between two numbers -/

theorem enumerateFrom_eq_take {rest : List Combination} (h : Follows n (c :: rest)) (count : Nat) :
    enumerateFrom n count c = (c :: rest).take count := by
  induction count generalizing c rest with
  | zero => rfl
  | succ count ih =>
      rw [enumerateFrom, List.take_succ_cons]
      cases h with
      | last hlast => rw [hlast, List.take_nil]
      | step hnext hrest =>
          rw [hnext]
          exact congrArg (c :: ·) (ih hrest)

def ending (total : Nat) : Option Int → Int
  | none => total
  | some stop => min stop total

/-- An enumeration takes as many combinations as lie between both numbers, beginning with that of the first. -/
theorem enumerate_of_choose {total : Nat} (h : choose n k = .ok total) (start : Nat) (stop : Option Int) :
    enumerate k n start stop =
      if ending total stop ≤ start then .ok []
      else unrank start k n >>= fun first =>
        .ok (enumerateFrom n (ending total stop - start).toNat first) := by
  rw [enumerate, h, ok_bind]
  cases stop <;> rfl

def interval (k n start : Nat) (stop : Option Int) : List Combination :=
  ((combinations k n).take (ending (n.choose k) stop).toNat).drop start

theorem enumerate_eq (hlimit : min k (n - k) ≤ maxFactors) (start : Nat) (stop : Option Int) :
    enumerate k n start stop = .ok (interval k n start stop) := by
  have hending : ending (n.choose k) stop ≤ n.choose k := by
    cases stop with
    | none => exact Int.le_refl _
    | some s => exact Int.min_le_right _ _
  rw [enumerate_of_choose (choose_of_le hlimit), interval]
  generalize ending (n.choose k) stop = last at hending
  split
  · have hlength := List.length_take_le last.toNat (combinations k n)
    rw [List.drop_eq_nil_of_le (by omega)]
  · have hstart : start < (combinations k n).length := by
      rw [length_combinations]
      omega
    have hk : k ≤ n := by
      by_contra hk
      rw [combinations_of_lt (Nat.lt_of_not_le hk)] at hstart
      cases hstart
    have hfollows := (follows_combinations hk).drop hstart
    rw [List.drop_eq_getElem_cons hstart] at hfollows
    have hcount : (last - start).toNat = last.toNat - start := by omega
    rw [unrank_of_getElem? hlimit (List.getElem?_eq_getElem hstart), ok_bind,
      enumerateFrom_eq_take hfollows, ← List.drop_eq_getElem_cons hstart, hcount, List.drop_take]

theorem interval_all (k n : Nat) : interval k n 0 none = combinations k n := by
  rw [interval, ending, Int.toNat_natCast, List.drop_zero, ← length_combinations, List.take_length]

/-- Intervals of which one ends where the other begins hold together what lies between their ends. -/
theorem interval_append {cut : Nat} {stop : Option Int} (hcut : start ≤ cut)
    (hstop : ∀ s, stop = some s → (cut : Int) ≤ s) :
    interval k n start (some cut) ++ interval k n cut stop = interval k n start stop := by
  have hfirst : (combinations k n).take (ending (n.choose k) (some cut)).toNat =
      ((combinations k n).take (ending (n.choose k) stop).toNat).take cut := by
    rw [List.take_take, List.take_eq_take_iff, length_combinations]
    cases stop with
    | none =>
        simp only [ending]
        omega
    | some s =>
        have hs := hstop s rfl
        simp only [ending]
        omega
  have hsum : start + (cut - start) = cut := by omega
  rw [interval, hfirst, interval, interval, List.drop_take]
  generalize (combinations k n).take (ending (n.choose k) stop).toNat = cs
  have hrest : cs.drop cut = (cs.drop start).drop (cut - start) := by rw [List.drop_drop, hsum]
  rw [hrest, List.take_append_drop]

/-! ## Beyond the limit -/

theorem enumerate_of_many (h : maxFactors < min k (n - k)) (start : Int) (stop : Option Int) :
    enumerate k n start stop = .error (.argument .tooManyFactors) := by
  rw [enumerate, choose_of_lt h]
  rfl

theorem unrank_of_many (h : maxFactors < min k (n - k)) {id : Int} (hid : 0 ≤ id) :
    unrank id k n = .error (.argument .tooManyFactors) := by
  rw [unrank, if_neg (Int.not_lt.mpr hid)]
  simp only [choose_of_lt h]
  rfl

theorem rank_of_many (h : maxFactors < min k (n - k)) {c : List Int} (hc : c.length = k) :
    rank c n = .error (.argument .tooManyFactors) := by
  cases c with
  | nil =>
      obtain rfl : 0 = k := hc
      exact absurd h (by omega)
  | cons v rest =>
      have hall : choose ((n : Int) - -1 - 1) ((v :: rest).length : Nat) = .error (.argument .tooManyFactors) := by
        rw [hc, Int.sub_neg, Int.add_sub_cancel]
        exact choose_of_lt h
      rw [rank, rankFrom, hall]
      rfl

/-- The list holds every increasing combination once and in order, as many as the binomial coefficient says, and
stepping goes through it. If the smaller of the chosen and the other values are not too many to be counted, the
enumeration from one number to another is a slice of the list, so that consecutive intervals make up the whole; the
number of a combination is its place; and each number below the count leads back to the combination, by searches
that end below `n`, while every other number is reported. If they are too many, counting is refused, so no interval
is enumerated, no combination has a number, and no number that is not negative leads anywhere. -/
theorem enumeration_exact (k n : Nat) :
    (∀ c, c ∈ combinations k n ↔ c.length = k ∧ c.Pairwise (· < ·) ∧ ∀ v ∈ c, v < n) ∧
    (combinations k n).Pairwise (· < ·) ∧ (combinations k n).length = n.choose k ∧
    (∀ i (h : i < (combinations k n).length), next n (combinations k n)[i] = (combinations k n)[i + 1]?) ∧
    (min k (n - k) ≤ maxFactors →
      enumerate k n 0 none = .ok (combinations k n) ∧
      (∀ (start : Nat) (stop : Option Int), enumerate k n start stop = .ok (interval k n start stop)) ∧
      (∀ (start cut : Nat) (stop : Option Int), start ≤ cut → (∀ s, stop = some s → (cut : Int) ≤ s) →
        interval k n start (some cut) ++ interval k n cut stop = interval k n start stop) ∧
      (∀ i (h : i < (combinations k n).length),
        rank ((combinations k n)[i].map Int.ofNat) n = .ok i ∧
        unrank i k n = .ok (combinations k n)[i] ∧ Unranks n k 0 i (combinations k n)[i]) ∧
      ∀ id : Int, id < 0 ∨ n.choose k ≤ id → unrank id k n = .error (.search (.combinationId id n k))) ∧
    (maxFactors < min k (n - k) →
      (∀ start stop, enumerate k n start stop = .error (.argument .tooManyFactors)) ∧
      (∀ c : List Int, c.length = k → rank c n = .error (.argument .tooManyFactors)) ∧
      ∀ id : Int, 0 ≤ id → unrank id k n = .error (.argument .tooManyFactors)) := by
  refine ⟨fun c => mem_combinations, pairwise_combinations k n, length_combinations k n,
    fun i h => next_eq_getElem? (List.getElem?_eq_getElem h), fun hlimit => ?_, fun hmany => ?_⟩
  · have hall : enumerate k n 0 none = .ok (combinations k n) := by
      rw [← interval_all k n]
      exact enumerate_eq hlimit 0 none
    refine ⟨hall, enumerate_eq hlimit, fun start cut stop => interval_append, fun i h => ?_,
      fun id => unrank_of_outside hlimit⟩
    have hplace := List.getElem?_eq_getElem h
    exact ⟨rank_of_getElem? hlimit hplace, unrank_of_getElem? hlimit hplace, unranks_of_getElem? hlimit hplace⟩
  · exact ⟨enumerate_of_many hmany, fun c => rank_of_many hmany, fun id => unrank_of_many hmany⟩

/-- Of the pairs below four, the one of one and three has the number four, and no pair has the number six. Half of so
many values that the ways to choose them are not counted cannot be chosen by number. -/
theorem enumeration_exact_pairs : 2 ≤ maxFactors ∧ combinations 2 4 =
      [[0, 1], [0, 2], [0, 3], [1, 2], [1, 3], [2, 3]] ∧
    enumerate 2 4 3 (some 5) = .ok [[1, 2], [1, 3]] ∧ rank [1, 3] 4 = .ok 4 ∧ unrank 4 2 4 = .ok [1, 3] ∧
    unrank 6 2 4 = .error (.search (.combinationId 6 4 2)) ∧ next 4 [1, 3] = some [2, 3] ∧
    next 4 [2, 3] = none ∧
    unrank 0 0x8000000000000000 0x10000000000000000 = .error (.argument .tooManyFactors) := by
  have hlist : combinations 2 4 = [[0, 1], [0, 2], [0, 3], [1, 2], [1, 3], [2, 3]] := by decide
  obtain ⟨-, -, -, hnext, hwithin, -⟩ := enumeration_exact 2 4
  obtain ⟨-, hslice, -, hplace, houtside⟩ := hwithin (by decide)
  obtain ⟨hrank, hunrank, -⟩ := hplace 4 (by decide)
  obtain ⟨-, -, -, -, -, hbeyond⟩ := enumeration_exact 0x8000000000000000 0x10000000000000000
  exact ⟨by decide, hlist, hslice 3 (some 5), hrank, hunrank, houtside 6 (Or.inr (by decide)),
    hnext 4 (by decide), hnext 5 (by decide), (hbeyond (by decide)).2.2 0 (by decide)⟩

/-- Even an empty interval is refused if the combinations are too many to be counted. -/
theorem huge_interval_refused :
    enumerate 0x8000000000000000 0x10000000000000000 0 (some 0) = .error (.argument .tooManyFactors) ∧
    enumerate 0x8000000000000000 0x10000000000000000 0 (some 0) ≠ .ok [] := by
  have hrefused : enumerate 0x8000000000000000 0x10000000000000000 0 (some 0) =
      .error (.argument .tooManyFactors) := enumerate_of_many (by decide) 0 (some 0)
  refine ⟨hrefused, ?_⟩
  rw [hrefused]
  intro h
  cases h

end MeasuredBoot.Combination
