import Mathlib.Data.List.Nodup
import Mathlib.Data.List.Pairwise
import Mathlib.Data.List.Perm.Subperm
import Mathlib.Tactic.SplitIfs
import MeasuredBoot.Proofs.Search.FirstAnswer

/-!
# The orders that are tried

A search for another order asks, one after another, the lists of disjoint pairs of positions whose
exchange it may answer: fewer pairs first, and lists with equally many pairs in lexicographic order of the
exchanges as they are made. Every list of disjoint pairs within the limit is among them. The pairs of an
answer are listed in the order opposite to that of the exchanges; since they are disjoint, making the
exchanges in either order gives the same list.
-/
namespace MeasuredBoot.Reorder

def Apart (p q : Nat × Nat) : Prop := p.1 ≠ q.1 ∧ p.1 ≠ q.2 ∧ p.2 ≠ q.1 ∧ p.2 ≠ q.2

instance : Std.Symm Apart := ⟨fun _ _ h => ⟨h.1.symm, h.2.2.1.symm, h.2.1.symm, h.2.2.2.symm⟩⟩

def exchangeAll {α : Type} (xs : List α) (s : List (Nat × Nat)) : List α :=
  s.foldl (fun xs p => exchange xs p.1 p.2) xs

/-! ## Exchanges -/

section Exchange
variable {α : Type}

@[simp] theorem length_exchange (xs : List α) (i j : Nat) : (exchange xs i j).length = xs.length := by
  unfold exchange
  split <;> simp

theorem mem_of_mem_exchange {xs : List α} {i j : Nat} {x : α} (h : x ∈ exchange xs i j) : x ∈ xs := by
  unfold exchange at h
  split at h
  · rename_i y z hi hj
    rcases List.mem_or_eq_of_mem_set h with h | rfl
    · rcases List.mem_or_eq_of_mem_set h with h | rfl
      · exact h
      · exact List.mem_of_getElem? hj
    · exact List.mem_of_getElem? hi
  · exact h

theorem mem_of_mem_exchangeAll {xs : List α} {s : List (Nat × Nat)} {x : α}
    (h : x ∈ exchangeAll xs s) : x ∈ xs := by
  induction s generalizing xs with
  | nil => exact h
  | cons p s ih => exact mem_of_mem_exchange (ih h)

theorem exchange_of_outside {xs : List α} {i j : Nat} (h : ¬ (i < xs.length ∧ j < xs.length)) :
    exchange xs i j = xs := by
  unfold exchange
  split
  · rename_i hi hj
    exact absurd ⟨(List.getElem?_eq_some_iff.mp hi).1, (List.getElem?_eq_some_iff.mp hj).1⟩ h
  · rfl

theorem getElem?_exchange {xs : List α} {i j : Nat} (hi : i < xs.length) (hj : j < xs.length)
    (k : Nat) :
    (exchange xs i j)[k]? = if k = j then xs[i]? else if k = i then xs[j]? else xs[k]? := by
  simp only [exchange, List.getElem?_eq_getElem hi, List.getElem?_eq_getElem hj]
  by_cases hkj : k = j
  · subst hkj
    simp [hj]
  · rw [List.getElem?_set_ne (Ne.symm hkj), if_neg hkj]
    by_cases hki : k = i
    · subst hki
      simp [hi]
    · rw [List.getElem?_set_ne (Ne.symm hki), if_neg hki]

theorem exchange_comm {p q : Nat × Nat} (h : Apart p q) (xs : List α) :
    exchange (exchange xs p.1 p.2) q.1 q.2 = exchange (exchange xs q.1 q.2) p.1 p.2 := by
  by_cases hp : p.1 < xs.length ∧ p.2 < xs.length
  · by_cases hq : q.1 < xs.length ∧ q.2 < xs.length
    · obtain ⟨h1, h2, h3, h4⟩ := h
      apply List.ext_getElem?
      intro k
      have hpq : q.1 < (exchange xs p.1 p.2).length ∧ q.2 < (exchange xs p.1 p.2).length := by
        simpa using hq
      have hqp : p.1 < (exchange xs q.1 q.2).length ∧ p.2 < (exchange xs q.1 q.2).length := by
        simpa using hp
      simp only [getElem?_exchange hpq.1 hpq.2, getElem?_exchange hqp.1 hqp.2,
        getElem?_exchange hp.1 hp.2, getElem?_exchange hq.1 hq.2]
      split_ifs <;> simp_all
    · have hq' : ¬ (q.1 < (exchange xs p.1 p.2).length ∧ q.2 < (exchange xs p.1 p.2).length) := by
        simpa using hq
      rw [exchange_of_outside hq', exchange_of_outside hq]
  · have hp' : ¬ (p.1 < (exchange xs q.1 q.2).length ∧ p.2 < (exchange xs q.1 q.2).length) := by
      simpa using hp
    rw [exchange_of_outside hp, exchange_of_outside hp']

/-- Disjoint pairs may be exchanged in the opposite order. -/
theorem exchangeAll_reverse {s : List (Nat × Nat)} (h : s.Pairwise Apart) (xs : List α) :
    exchangeAll xs s.reverse = exchangeAll xs s := by
  refine List.Perm.foldl_eq' (List.reverse_perm s) ?_ xs
  intro p hp q hq ys
  rcases eq_or_ne p q with rfl | hne
  · rfl
  · exact exchange_comm (h.forall (List.mem_reverse.mp hp) (List.mem_reverse.mp hq) hne) ys

end Exchange

/-! ## Pairs and lists of disjoint pairs -/

theorem mem_pairs {free : List Nat} (h : free.Pairwise (· < ·)) {p : Nat × Nat} :
    p ∈ pairs free ↔ p.1 ∈ free ∧ p.2 ∈ free ∧ p.1 < p.2 := by
  induction free with
  | nil => simp [pairs]
  | cons x rest ih =>
      obtain ⟨hx, hrest⟩ := List.pairwise_cons.mp h
      simp only [pairs, List.mem_append, List.mem_map, ih hrest, List.mem_cons]
      constructor
      · rintro (⟨y, hy, rfl⟩ | ⟨hi, hj, hlt⟩)
        · exact ⟨Or.inl rfl, Or.inr hy, hx y hy⟩
        · exact ⟨Or.inr hi, Or.inr hj, hlt⟩
      · obtain ⟨i, j⟩ := p
        rintro ⟨hi | hi, hj | hj, hlt⟩
        · omega
        · exact Or.inl ⟨j, hj, by rw [← hi]⟩
        · have := hx _ hi
          omega
        · exact Or.inr ⟨hi, hj, hlt⟩

/-- Pairs are ordered by their first position, then by their second. -/
abbrev PairLess : Nat × Nat → Nat × Nat → Prop := Prod.Lex (· < ·) (· < ·)

theorem pairwise_pairs {free : List Nat} (h : free.Pairwise (· < ·)) :
    (pairs free).Pairwise PairLess := by
  induction free with
  | nil => exact List.Pairwise.nil
  | cons x rest ih =>
      obtain ⟨hx, hrest⟩ := List.pairwise_cons.mp h
      refine List.pairwise_append.mpr ⟨?_, ih hrest, ?_⟩
      · exact List.pairwise_map.mpr (hrest.imp fun hlt => Prod.Lex.right _ hlt)
      · intro p hp q hq
        obtain ⟨y, -, rfl⟩ := List.mem_map.mp hp
        exact Prod.Lex.left _ _ (hx _ ((mem_pairs hrest).mp hq).1)

/-- The lists of `limit` disjoint pairs of free positions, or of as many as there are, in the order in
which they are tried; the last pair of a list is exchanged first. -/
def pairings : (limit : Nat) → (free : List Nat) → List (List (Nat × Nat))
  | 0, _ => [[]]
  | limit + 1, free =>
    if free.length < 2 then [[]]
    else (pairs free).flatMap fun p =>
      (pairings limit (free.filter fun k => k ≠ p.1 && k ≠ p.2)).map (· ++ [p])

theorem pairings_sound {limit : Nat} {free : List Nat} (h : free.Pairwise (· < ·))
    {s : List (Nat × Nat)} (hs : s ∈ pairings limit free) :
    (∀ p ∈ s, p.1 ∈ free ∧ p.2 ∈ free ∧ p.1 < p.2) ∧ s.Pairwise Apart := by
  induction limit generalizing free s with
  | zero =>
      obtain rfl : s = [] := by simpa [pairings] using hs
      simp
  | succ limit ih =>
      rw [pairings] at hs
      split at hs
      · obtain rfl : s = [] := by simpa using hs
        simp
      · obtain ⟨p, hp, hs⟩ := List.mem_flatMap.mp hs
        obtain ⟨t, ht, rfl⟩ := List.mem_map.mp hs
        obtain ⟨hmem, hapart⟩ := ih (h.filter _) ht
        simp only [List.mem_filter, ne_eq, Bool.and_eq_true, decide_eq_true_eq] at hmem
        constructor
        · intro q hq
          rcases List.mem_append.mp hq with hq | hq
          · exact ⟨(hmem q hq).1.1, (hmem q hq).2.1.1, (hmem q hq).2.2⟩
          · obtain rfl := List.mem_singleton.mp hq
            exact (mem_pairs h).mp hp
        · refine List.pairwise_append.mpr ⟨hapart, List.pairwise_singleton _ _, ?_⟩
          intro q hq r hr
          obtain rfl := List.mem_singleton.mp hr
          obtain ⟨h1, h2, -⟩ := hmem q hq
          exact ⟨h1.2.1, h1.2.2, h2.2.1, h2.2.2⟩

theorem length_filter_apart {free : List Nat} (h : free.Pairwise (· < ·)) {p : Nat × Nat}
    (hp : p ∈ pairs free) :
    (free.filter fun k => k ≠ p.1 && k ≠ p.2).length + 2 = free.length := by
  obtain ⟨hi, hj, hlt⟩ := (mem_pairs h).mp hp
  have hn : free.Nodup := h.imp fun hlt => Nat.ne_of_lt hlt
  have he : (free.filter fun k => k ≠ p.1 && k ≠ p.2) = (free.erase p.1).erase p.2 := by
    have hn' : (free.filter (· != p.1)).Nodup := hn.filter _
    rw [hn.erase_eq_filter, hn'.erase_eq_filter, List.filter_filter]
    congr 1
    funext k
    exact Bool.eq_iff_iff.mpr (by simp [and_comm])
  have hj' : p.2 ∈ free.erase p.1 := (List.mem_erase_of_ne (Nat.ne_of_gt hlt)).mpr hj
  have := List.length_pos_of_mem hi
  have := List.length_pos_of_mem hj'
  rw [List.length_erase_of_mem hi] at this
  rw [he, List.length_erase_of_mem hj', List.length_erase_of_mem hi]
  omega

theorem mem_pairings {limit : Nat} {free : List Nat} (h : free.Pairwise (· < ·))
    (hlen : 2 * limit ≤ free.length) {s : List (Nat × Nat)} :
    s ∈ pairings limit free ↔
      s.length = limit ∧ (∀ p ∈ s, p.1 ∈ free ∧ p.2 ∈ free ∧ p.1 < p.2) ∧ s.Pairwise Apart := by
  induction limit generalizing free s with
  | zero =>
      rw [pairings, List.mem_singleton, List.length_eq_zero_iff]
      constructor
      · rintro rfl
        simp
      · exact And.left
  | succ limit ih =>
      have hrest {p : Nat × Nat} (hp : p ∈ pairs free) :
          2 * limit ≤ (free.filter fun k => k ≠ p.1 && k ≠ p.2).length := by
        have := length_filter_apart h hp
        omega
      constructor
      · intro hs
        refine ⟨?_, pairings_sound h hs⟩
        rw [pairings, if_neg (by omega)] at hs
        obtain ⟨p, hp, hs⟩ := List.mem_flatMap.mp hs
        obtain ⟨t, ht, rfl⟩ := List.mem_map.mp hs
        simp [((ih (h.filter _) (hrest hp)).mp ht).1]
      · rintro ⟨hs, hmem, hapart⟩
        obtain ⟨t, p, rfl⟩ : ∃ t p, s = t ++ [p] := by
          rcases List.eq_nil_or_concat s with rfl | ⟨t, p, rfl⟩
          · simp at hs
          · exact ⟨t, p, List.concat_eq_append⟩
        have hp : p ∈ pairs free := (mem_pairs h).mpr (hmem p (by simp))
        obtain ⟨ht, -, htp⟩ := List.pairwise_append.mp hapart
        rw [pairings, if_neg (by omega), List.mem_flatMap]
        refine ⟨p, hp, List.mem_map.mpr ⟨t, ?_, rfl⟩⟩
        refine (ih (h.filter _) (hrest hp)).mpr ⟨by simpa using hs, ?_, ht⟩
        intro q hq
        obtain ⟨h1, h2, h3⟩ := hmem q (by simp [hq])
        obtain ⟨a1, a2, a3, a4⟩ := htp q hq p (by simp)
        simp [h1, h2, h3, a1, a2, a3, a4]

/-- Lists of equally many pairs are tried in lexicographic order of the exchanges as they are made. -/
theorem pairwise_pairings (limit : Nat) {free : List Nat} (h : free.Pairwise (· < ·)) :
    (pairings limit free).Pairwise fun s t => List.Lex PairLess s.reverse t.reverse := by
  induction limit generalizing free with
  | zero => exact List.pairwise_singleton _ _
  | succ limit ih =>
      rw [pairings]
      split
      · exact List.pairwise_singleton _ _
      · refine List.pairwise_flatMap.mpr ⟨?_, ?_⟩
        · intro p _
          refine List.pairwise_map.mpr ((ih (h.filter _)).imp ?_)
          intro s t hst
          simpa using List.Lex.cons hst
        · apply (pairwise_pairs h).imp
          intro p q hpq s hs t ht
          obtain ⟨s, -, rfl⟩ := List.mem_map.mp hs
          obtain ⟨t, -, rfl⟩ := List.mem_map.mp ht
          simpa using List.Lex.rel hpq

/-! ## The search -/

/-- All lists of disjoint pairs among `n` positions that a search with a limit tries, in order. -/
def trials (limit : Int) (n : Nat) : List (List (Nat × Nat)) :=
  (List.range (min limit (n / 2 : Nat) + 1).toNat).flatMap fun count => pairings count (List.range n)

/-- Fewer pairs come first, then lists in lexicographic order of the exchanges as they are made. -/
def Before (s t : List (Nat × Nat)) : Prop :=
  s.length < t.length ∨ s.length = t.length ∧ List.Lex PairLess s.reverse t.reverse

/-- Disjoint pairs below `n` have twice as many positions. -/
theorem two_mul_length_le {n : Nat} {s : List (Nat × Nat)} (h : s.Pairwise Apart)
    (hlt : ∀ p ∈ s, p.1 < p.2 ∧ p.2 < n) : 2 * s.length ≤ n := by
  have hn : (s.flatMap fun p => [p.1, p.2]).Nodup := by
    refine List.nodup_flatMap.mpr ⟨?_, h.imp ?_⟩
    · intro p hp
      have := (hlt p hp).1
      simp
      omega
    · rintro p q ⟨h1, h2, h3, h4⟩
      simp [h1.symm, h2.symm, h3.symm, h4.symm]
  have hsub : (s.flatMap fun p => [p.1, p.2]) ⊆ List.range n := by
    intro k hk
    obtain ⟨p, hp, hk⟩ := List.mem_flatMap.mp hk
    have := hlt p hp
    simp only [List.mem_cons, List.not_mem_nil, or_false] at hk
    rw [List.mem_range]
    omega
  have hlen := (List.subperm_of_subset hn hsub).length_le
  rw [List.length_range, List.length_flatMap] at hlen
  simp only [List.length_cons, List.length_nil, List.map_const', List.sum_replicate_nat] at hlen
  omega

theorem mem_trials {limit : Int} {n : Nat} {s : List (Nat × Nat)} :
    s ∈ trials limit n ↔
      (s.length : Int) ≤ limit ∧ (∀ p ∈ s, p.1 < p.2 ∧ p.2 < n) ∧ s.Pairwise Apart := by
  have hpairings {count : Nat} (hc : 2 * count ≤ n) :=
    mem_pairings (s := s) (List.pairwise_lt_range (n := n)) (by simpa using hc)
  have hbelow : (∀ p ∈ s, p.1 ∈ List.range n ∧ p.2 ∈ List.range n ∧ p.1 < p.2) ↔
      ∀ p ∈ s, p.1 < p.2 ∧ p.2 < n := by
    refine forall₂_congr fun p _ => ?_
    simp only [List.mem_range]
    omega
  simp only [trials, List.mem_flatMap, List.mem_range]
  constructor
  · rintro ⟨count, hcount, hs⟩
    obtain ⟨rfl, hmem, hapart⟩ := (hpairings (by omega)).mp hs
    exact ⟨by omega, hbelow.mp hmem, hapart⟩
  · rintro ⟨hlen, hmem, hapart⟩
    have := two_mul_length_le hapart hmem
    exact ⟨s.length, by omega, (hpairings (by omega)).mpr ⟨rfl, hbelow.mpr hmem, hapart⟩⟩

theorem pairwise_trials (limit : Int) (n : Nat) : (trials limit n).Pairwise Before := by
  refine List.pairwise_flatMap.mpr ⟨?_, ?_⟩
  · intro count hcount
    apply (pairwise_pairings count List.pairwise_lt_range).imp_of_mem
    intro s t hs ht hst
    have hc : 2 * count ≤ (List.range n).length := by
      have := List.mem_range.mp hcount
      rw [List.length_range]
      omega
    have hs := (mem_pairings List.pairwise_lt_range hc).mp hs
    have ht := (mem_pairings List.pairwise_lt_range hc).mp ht
    exact Or.inr ⟨hs.1.trans ht.1.symm, hst⟩
  · apply List.pairwise_lt_range.imp_of_mem
    intro i j hi hj hij s hs t ht
    have hi : 2 * i ≤ (List.range n).length := by
      have := List.mem_range.mp hi
      rw [List.length_range]
      omega
    have hj : 2 * j ≤ (List.range n).length := by
      have := List.mem_range.mp hj
      rw [List.length_range]
      omega
    have hs := (mem_pairings List.pairwise_lt_range hi).mp hs
    have ht := (mem_pairings List.pairwise_lt_range hj).mp ht
    exact Or.inl (by omega)

section Search
variable {m : Type → Type} [Monad m] [LawfulMonad m] {α : Type}

/-- The answer to one list of pairs: the list itself, if the exchanged items match. -/
def answer (matching : List α → m Bool) (xs : List α) (s : List (Nat × Nat)) :
    m (Option (List (Nat × Nat))) :=
  (fun matches? => if matches? then some s else none) <$> matching (exchangeAll xs s.reverse)

theorem exactly_eq_firstAnswer (matching : List α → m Bool) (limit : Nat) (free : List Nat)
    (xs : List α) :
    exactly matching limit free xs = firstAnswer (answer matching xs) (pairings limit free) := by
  induction limit generalizing free xs with
  | zero => rw [exactly, pairings, firstAnswer_singleton, answer, map_eq_pure_bind]; rfl
  | succ limit ih =>
      rw [exactly, pairings]
      split
      · rw [firstAnswer_singleton, answer, map_eq_pure_bind]
        rfl
      · rw [firstAnswer_flatMap]
        refine firstAnswer_congr fun p _ => ?_
        have hstep (t : List (Nat × Nat)) : answer matching xs (t ++ [p]) =
            Option.map (· ++ [p]) <$> answer matching (exchange xs p.1 p.2) t := by
          rw [answer, answer, Functor.map_map, List.reverse_append]
          congr 1
          funext found
          cases found <;> rfl
        rw [firstAnswer_map]
        simp only [hstep]
        rw [firstAnswer_mapped, ← ih, map_eq_pure_bind]

/-- A search for another order asks the lists of disjoint pairs in their order. -/
theorem upTo_eq_firstAnswer (matching : List α → m Bool) (limit : Int) (xs : List α) :
    upTo matching limit xs = firstAnswer (answer matching xs) (trials limit xs.length) := by
  rw [upTo, trials, firstAnswer_flatMap]
  exact firstAnswer_congr fun count _ => exactly_eq_firstAnswer matching count _ xs

end Search
end MeasuredBoot.Reorder
