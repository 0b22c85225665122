import Mathlib.Data.List.Forall2
import MeasuredBoot.Proofs.Reproduce.Distance
import MeasuredBoot.Proofs.Runs
import MeasuredBoot.Proofs.Search.Combinations

/-!
# The search for an alignment

The search walks through one list of pairs of index sets, those with one side whole first, and keeps the
first one of the least distance. All pairs in the list leave equally many events and entries, and one side can
always be whole, so the list is not empty: the search answers if every event has a digest, or if there is nothing
to pair. Stopping early at a distance of zero changes nothing then. Otherwise the event without a digest is paired
by some choice with one side whole, and no choice before that is free: the search fails.
-/
namespace MeasuredBoot.Alignment
open Combination (combinations)

theorem mem_combinations_iff {k n : Nat} {c : Combination} :
    c ∈ combinations k n ↔ c.length = k ∧ IsIndexSet n c := by
  rw [Combination.mem_combinations]
  constructor
  · intro ⟨hlen, hs, hlt⟩
    exact ⟨hlen, hs, hlt⟩
  · intro ⟨hlen, hset⟩
    exact ⟨hlen, hset.increasing, hset.lt⟩

/-- Positions of `events` events and of `entries` entries that leave equally many of both. -/
structure Balances (events entries : Nat) (s : List Nat × List Nat) : Prop where
  fst : IsIndexSet events s.1
  snd : IsIndexSet entries s.2
  balance : s.1.length + entries = s.2.length + events

/-! ## What is tried -/

/-- One side whole. -/
def oneSide (events entries : Nat) : List (List Nat × List Nat) :=
  if entries < events then (combinations (events - entries) events).map fun es => (es, [])
  else (combinations (entries - events) entries).map fun cs => ([], cs)

/-- So many events skipped, and as many entries as balance them. -/
def bothSides (events entries count : Nat) : List (List Nat × List Nat) :=
  if count + entries < events then []
  else (combinations count events).flatMap fun es =>
    (combinations (count + entries - events) entries).map fun cs => (es, cs)

def tried (events entries : Nat) (maxSkipped : Int) : List (List Nat × List Nat) :=
  oneSide events entries ++
    (List.range (min maxSkipped events + 1).toNat).flatMap (bothSides events entries)

theorem mem_oneSide {events entries : Nat} {s : List Nat × List Nat} :
    s ∈ oneSide events entries ↔ Balances events entries s ∧ (s.1 = [] ∨ s.2 = []) := by
  obtain ⟨es, cs⟩ := s
  unfold oneSide
  split
  · rename_i hlt
    simp only [List.mem_map, mem_combinations_iff, Prod.mk.injEq]
    constructor
    · intro ⟨c, ⟨hlen, hset⟩, hes, hcs⟩
      rw [← hes, ← hcs]
      exact ⟨⟨hset, isIndexSet_nil _, by simp only [List.length_nil]; omega⟩, .inr rfl⟩
    · intro ⟨hs, hone⟩
      have hbalance : es.length + entries = cs.length + events := hs.balance
      have hcs : cs = [] := by
        rcases hone with hes | hcs
        · have hnil : es.length = 0 := List.length_eq_zero_iff.mpr hes
          omega
        · exact hcs
      rw [hcs, List.length_nil] at hbalance
      exact ⟨es, ⟨by omega, hs.fst⟩, rfl, hcs.symm⟩
  · rename_i hle
    simp only [List.mem_map, mem_combinations_iff, Prod.mk.injEq]
    constructor
    · intro ⟨c, ⟨hlen, hset⟩, hes, hcs⟩
      rw [← hes, ← hcs]
      exact ⟨⟨isIndexSet_nil _, hset, by simp only [List.length_nil]; omega⟩, .inl rfl⟩
    · intro ⟨hs, hone⟩
      have hbalance : es.length + entries = cs.length + events := hs.balance
      have hes : es = [] := by
        rcases hone with hes | hcs
        · exact hes
        · have hnil : cs.length = 0 := List.length_eq_zero_iff.mpr hcs
          exact List.length_eq_zero_iff.mp (by omega)
      rw [hes, List.length_nil] at hbalance
      exact ⟨cs, ⟨by omega, hs.snd⟩, hes.symm, rfl⟩

theorem mem_bothSides {events entries count : Nat} {s : List Nat × List Nat} :
    s ∈ bothSides events entries count ↔ Balances events entries s ∧ s.1.length = count := by
  obtain ⟨es, cs⟩ := s
  unfold bothSides
  split
  · rename_i hlt
    simp only [List.not_mem_nil, false_iff]
    intro ⟨hs, hlen⟩
    have hbalance : es.length + entries = cs.length + events := hs.balance
    have hcount : es.length = count := hlen
    omega
  · rename_i hle
    simp only [List.mem_flatMap, List.mem_map, mem_combinations_iff, Prod.mk.injEq]
    constructor
    · intro ⟨es', ⟨hes', hset'⟩, cs', ⟨hcs', hset⟩, hes, hcs⟩
      rw [← hes, ← hcs]
      exact ⟨⟨hset', hset, by simp only; omega⟩, hes'⟩
    · intro ⟨hs, hlen⟩
      have hbalance : es.length + entries = cs.length + events := hs.balance
      have hcount : es.length = count := hlen
      exact ⟨es, ⟨hcount, hs.fst⟩, cs, ⟨by omega, hs.snd⟩, rfl, rfl⟩

/-- What is tried are the pairs that balance, with few enough events skipped or one side whole. -/
theorem mem_tried {events entries : Nat} {maxSkipped : Int} {s : List Nat × List Nat} :
    s ∈ tried events entries maxSkipped ↔
      Balances events entries s ∧ (s.1.length ≤ maxSkipped ∨ s.1 = [] ∨ s.2 = []) := by
  rw [tried, List.mem_append, mem_oneSide, List.mem_flatMap]
  simp only [List.mem_range, mem_bothSides]
  constructor
  · intro h
    rcases h with ⟨hs, hone⟩ | ⟨count, hcount, hs, hlen⟩
    · exact ⟨hs, .inr hone⟩
    · exact ⟨hs, .inl (by omega)⟩
  · intro ⟨hs, h⟩
    rcases h with hle | hone
    · have hmax := Combination.length_le_of_forall_lt hs.fst.increasing hs.fst.lt
      exact .inr ⟨s.1.length, by omega, hs, rfl⟩
    · exact .inl ⟨hs, hone⟩

theorem oneSide_ne_nil (events entries : Nat) : oneSide events entries ≠ [] := by
  unfold oneSide
  split
  · intro h
    have hlen := Combination.length_combinations (events - entries) events
    have hpos : 0 < events.choose (events - entries) := Nat.choose_pos (by omega)
    rw [List.map_eq_nil_iff.mp h, List.length_nil] at hlen
    omega
  · intro h
    have hlen := Combination.length_combinations (entries - events) entries
    have hpos : 0 < entries.choose (entries - events) := Nat.choose_pos (by omega)
    rw [List.map_eq_nil_iff.mp h, List.length_nil] at hlen
    omega

/-! ## What is kept of what is tried -/

theorem better_of_perfect {best : Option Alignment} (h : isPerfect best = true) (a : Alignment) :
    better best a = best := by
  cases best with
  | none => cases h
  | some b =>
      have hb : b.cost = 0 := by simpa [isPerfect] using h
      simp [better, hb]

theorem isPerfect_better {best : Option Alignment} {a : Alignment} (h : isPerfect best = false)
    (ha : a.cost ≠ 0) : isPerfect (better best a) = false := by
  cases best with
  | none => simpa [better, isPerfect] using ha
  | some b =>
      rw [better]
      split
      · simpa [isPerfect] using ha
      · exact h

theorem foldl_better_of_perfect {best : Option Alignment} (h : isPerfect best = true)
    (xs : List Alignment) : xs.foldl better best = best := by
  induction xs with
  | nil => rfl
  | cons a rest ih => rw [List.foldl_cons, better_of_perfect h, ih]

/-- The best of some alignments, one of which is there already, is one of them and costs the least. -/
theorem exists_least_of_some (b : Alignment) (xs : List Alignment) :
    ∃ a ∈ b :: xs, xs.foldl better (some b) = some a ∧ ∀ d ∈ b :: xs, a.cost ≤ d.cost := by
  induction xs generalizing b with
  | nil => exact ⟨b, by simp, rfl, by simp⟩
  | cons x rest ih =>
      rw [List.foldl_cons, better]
      split
      · rename_i hlt
        obtain ⟨a, ha, hfold, hleast⟩ := ih x
        refine ⟨a, List.mem_cons_of_mem b ha, hfold, fun d hd => ?_⟩
        rcases List.mem_cons.mp hd with rfl | hd
        · have hx := hleast x (by simp)
          omega
        · exact hleast d hd
      · rename_i hle
        obtain ⟨a, ha, hfold, hleast⟩ := ih b
        have hb := hleast b (by simp)
        refine ⟨a, ?_, hfold, fun d hd => ?_⟩
        · rcases List.mem_cons.mp ha with rfl | ha
          · simp
          · simp [ha]
        · rcases List.mem_cons.mp hd with rfl | hd
          · exact hb
          · rcases List.mem_cons.mp hd with rfl | hd
            · omega
            · exact hleast d (by simp [hd])

theorem exists_least {xs : List Alignment} (h : xs ≠ []) :
    ∃ a ∈ xs, xs.foldl better none = some a ∧ ∀ d ∈ xs, a.cost ≤ d.cost := by
  cases xs with
  | nil => exact absurd rfl h
  | cons x rest => exact exists_least_of_some x rest

/-! ## The search -/

section Search
variable (expected : List ReportedEvent) (calculated : List EventEntry)

def alignmentOf (s : List Nat × List Nat) : Alignment :=
  ⟨s.1, s.2, distance expected s.1 calculated s.2⟩

/-- What trying one choice makes of the best alignment so far. -/
def attemptOn (best : Option Alignment) (s : List Nat × List Nat) : Except Fault (Option Alignment) :=
  if isPerfect best then pure best else consider expected calculated s.1 s.2 best

/-- True of logs of which every pair can be compared: without an entry there is no pair. -/
def Comparable : Prop := calculated ≠ [] → ∀ e ∈ expected, e.digest.isSome = true

variable {expected calculated}

theorem Comparable.digests (h : Comparable expected calculated) (s : List Nat × List Nat) :
    ∀ e c, (e, c) ∈ (kept s.1 expected).zip (kept s.2 calculated) → e.digest.isSome = true := by
  intro e c hpair
  obtain ⟨he, hc⟩ := List.of_mem_zip hpair
  exact h (List.ne_nil_of_mem (mem_of_mem_kept hc)) e (mem_of_mem_kept he)

theorem Balances.length_eq {s : List Nat × List Nat}
    (h : Balances expected.length calculated.length s) :
    (kept s.1 expected).length = (kept s.2 calculated).length := by
  have hevents := h.fst.length_kept
  have hentries := h.snd.length_kept
  have hbalance := h.balance
  omega

theorem costOf_of_balances {s : List Nat × List Nat} (hcomparable : Comparable expected calculated)
    (h : Balances expected.length calculated.length s) :
    costOf expected s.1 calculated s.2 = .ok (distance expected s.1 calculated s.2) := by
  rw [costOf_eq h.fst h.snd, costOfKept_of_digests _ (hcomparable.digests s), if_pos h.length_eq, distance]

theorem attemptOn_of_imperfect {best : Option Alignment} (h : isPerfect best = false)
    (s : List Nat × List Nat) :
    attemptOn expected calculated best s = consider expected calculated s.1 s.2 best := by
  rw [attemptOn, h]
  exact if_neg Bool.false_ne_true

/-- Once the best alignment is perfect, it makes no difference whether others are still tried. -/
theorem attemptOn_of_balances {s : List Nat × List Nat} (hcomparable : Comparable expected calculated)
    (h : Balances expected.length calculated.length s) (best : Option Alignment) :
    attemptOn expected calculated best s = .ok (better best (alignmentOf expected calculated s)) := by
  cases hperfect : isPerfect best with
  | true =>
      rw [attemptOn, if_pos hperfect, better_of_perfect hperfect]
      rfl
  | false =>
      rw [attemptOn_of_imperfect hperfect, consider, costOf_of_balances hcomparable h]
      rfl

theorem tryOneSide_eq_foldlM : tryOneSide expected calculated =
    (oneSide expected.length calculated.length).foldlM (attemptOn expected calculated) none := by
  unfold tryOneSide
  simp only
  split
  · rename_i hlt
    rw [oneSide, if_pos hlt, Combination.foldUntil_eq_foldlM, List.foldlM_map]
    rfl
  · rename_i hle
    rw [oneSide, if_neg hle, Combination.foldUntil_eq_foldlM, List.foldlM_map]
    rfl

theorem tryOneSide_eq (hcomparable : Comparable expected calculated) : tryOneSide expected calculated =
    .ok (((oneSide expected.length calculated.length).map
      (alignmentOf expected calculated)).foldl better none) := by
  rw [tryOneSide_eq_foldlM, List.foldl_map]
  exact foldlM_of_ok (fun s hs => attemptOn_of_balances hcomparable (mem_oneSide.mp hs).1) none

theorem tryBothSides_eq (hcomparable : Comparable expected calculated) (count : Nat)
    (best : Option Alignment) :
    tryBothSides expected calculated count best =
      .ok (((bothSides expected.length calculated.length count).map
        (alignmentOf expected calculated)).foldl better best) := by
  have hside : ∀ s ∈ bothSides expected.length calculated.length count,
      Balances expected.length calculated.length s := fun s hs => (mem_bothSides.mp hs).1
  unfold tryBothSides
  simp only
  split
  · rename_i hlt
    rw [bothSides, if_pos hlt]
    rfl
  · rename_i hle
    rw [bothSides, if_neg hle] at hside ⊢
    rw [Combination.foldUntil_eq_foldlM, List.foldl_map, List.foldl_flatMap]
    refine foldlM_of_ok (fun es hes b => ?_) best
    have hinner : Combination.foldUntil (count + calculated.length - expected.length) calculated.length
        isPerfect (fun best cs => consider expected calculated es cs best) b =
          .ok (((combinations (count + calculated.length - expected.length) calculated.length).map
            fun cs => (es, cs)).foldl (fun b s => better b (alignmentOf expected calculated s)) b) := by
      rw [Combination.foldUntil_eq_foldlM, List.foldl_map]
      refine foldlM_of_ok (fun cs hcs b => attemptOn_of_balances hcomparable (hside (es, cs) ?_) b) b
      exact List.mem_flatMap.mpr ⟨es, hes, List.mem_map_of_mem hcs⟩
    rw [hinner]
    split
    · rename_i hperfect
      rw [← List.foldl_map, foldl_better_of_perfect hperfect]
      rfl
    · rfl

/-- The search answers with the best of what is tried. -/
theorem search_of_best (hcomparable : Comparable expected calculated) {maxSkipped : Int} {a : Alignment}
    (h : ((tried expected.length calculated.length maxSkipped).map
      (alignmentOf expected calculated)).foldl better none = some a) :
    search expected calculated maxSkipped = .ok a := by
  have hcounts : ∀ counts : List Nat, ∀ best : Option Alignment,
      counts.foldlM (fun best count => tryBothSides expected calculated count best) best =
        .ok (((counts.flatMap (bothSides expected.length calculated.length)).map
          (alignmentOf expected calculated)).foldl better best) := by
    intro counts best
    rw [List.map_flatMap, List.foldl_flatMap]
    exact foldlM_of_ok (fun count _ b => tryBothSides_eq hcomparable count b) best
  rw [tried, List.map_append, List.foldl_append] at h
  rw [search, tryOneSide_eq hcomparable]
  simp only [ok_bind, hcounts, h]
  rfl

/-- The search answers, and nothing that it might try costs less than its answer. -/
theorem exists_search_least (hcomparable : Comparable expected calculated) (maxSkipped : Int) :
    ∃ s ∈ tried expected.length calculated.length maxSkipped,
      search expected calculated maxSkipped = .ok (alignmentOf expected calculated s) ∧
        ∀ t ∈ tried expected.length calculated.length maxSkipped,
          distance expected s.1 calculated s.2 ≤ distance expected t.1 calculated t.2 := by
  have hne : (tried expected.length calculated.length maxSkipped).map
      (alignmentOf expected calculated) ≠ [] := by
    intro h
    have hnil := List.map_eq_nil_iff.mp h
    rw [tried, List.append_eq_nil_iff] at hnil
    exact oneSide_ne_nil _ _ hnil.1
  obtain ⟨a, ha, hbest, hleast⟩ := exists_least hne
  obtain ⟨s, hs, rfl⟩ := List.mem_map.mp ha
  exact ⟨s, hs, search_of_best hcomparable hbest, fun t ht => hleast _ (List.mem_map_of_mem ht)⟩

end Search

/-! ## A log that is part of the other -/

section Part
variable {α β : Type}

theorem keptFrom_congr {skipped other : List Nat} {i : Nat} (xs : List α)
    (h : ∀ j, i ≤ j → skipped.contains j = other.contains j) :
    keptFrom skipped i xs = keptFrom other i xs := by
  induction xs generalizing i with
  | nil => rfl
  | cons x rest ih =>
      have hrest := ih (i := i + 1) fun j hj => h j (by omega)
      rw [keptFrom, keptFrom, h i (Nat.le_refl i), hrest]

theorem exists_keptFrom_eq {ys xs : List α} (h : ys.Sublist xs) (i : Nat) :
    ∃ c : List Nat, c.Pairwise (· < ·) ∧ (∀ j ∈ c, i ≤ j ∧ j < i + xs.length) ∧
      keptFrom c i xs = ys := by
  induction h generalizing i with
  | slnil => exact ⟨[], .nil, by simp, rfl⟩
  | @cons ys xs x _ ih =>
      obtain ⟨c, hs, hmem, hkept⟩ := ih (i + 1)
      refine ⟨i :: c, List.pairwise_cons.mpr ⟨fun j hj => (hmem j hj).1, hs⟩, ?_, ?_⟩
      · intro j hj
        rw [List.length_cons]
        rcases List.mem_cons.mp hj with rfl | hj
        · omega
        · have hbounds := hmem j hj
          omega
      · rw [keptFrom_of_skipped x xs (by simp), ← hkept]
        apply keptFrom_congr
        intro j hj
        have hne : j ≠ i := by omega
        simp [hne]
  | @cons_cons ys xs x _ ih =>
      obtain ⟨c, hs, hmem, hkept⟩ := ih (i + 1)
      refine ⟨c, hs, ?_, ?_⟩
      · intro j hj
        have hbounds := hmem j hj
        rw [List.length_cons]
        omega
      · have hi : ¬ c.contains i = true := by
          intro hi
          have hbounds := hmem i (List.contains_iff_mem.mp hi)
          omega
        rw [keptFrom_of_kept x xs hi, hkept]

theorem exists_kept_eq {ys xs : List α} (h : ys.Sublist xs) :
    ∃ c, IsIndexSet xs.length c ∧ kept c xs = ys := by
  obtain ⟨c, hs, hmem, hkept⟩ := exists_keptFrom_eq h 0
  exact ⟨c, ⟨hs, fun j hj => by have hbounds := hmem j hj; omega⟩, hkept⟩

theorem exists_sublist_of_mem {xs : List α} {x : α} (hx : x ∈ xs) {n : Nat} (hpos : 0 < n)
    (hle : n ≤ xs.length) : ∃ ys : List α, ys.Sublist xs ∧ ys.length = n ∧ x ∈ ys := by
  obtain ⟨front, back, rfl⟩ := List.append_of_mem hx
  refine ⟨front.take (n - 1) ++ x :: back.take (n - 1 - front.length),
    (List.take_sublist _ _).append ((List.take_sublist _ _).cons_cons x), ?_, by simp⟩
  simp only [List.length_append, List.length_cons, List.length_take] at hle ⊢
  omega

def both? : Option α × Option β → Option (β × α)
  | (some c, some e) => some (e, c)
  | _ => none

/-- The pairs of an alignment are those of what is left of both lists. -/
theorem filterMap_pairFrom (a : Alignment) (i : Nat) (es : List β) (k : Nat) (cs : List α) :
    (pairFrom a i es k cs).filterMap both? =
      (keptFrom a.skippedEvents i es).zip (keptFrom a.skippedEntries k cs) := by
  fun_induction pairFrom a i es k cs with
  | case1 i k => rfl
  | case2 i k c cs ih => simpa [both?, keptFrom] using ih
  | case3 i e es k ih => simpa [both?, keptFrom] using ih
  | case4 i e es k c cs hi ih =>
      rw [keptFrom_of_skipped e es hi, ← ih]
      rfl
  | case5 i e es k c cs hi hk ih =>
      rw [keptFrom_of_skipped c cs hk, ← ih]
      rfl
  | case6 i e es k c cs hi hk ih =>
      rw [keptFrom_of_kept e es hi, keptFrom_of_kept c cs hk, List.zip_cons_cons, ← ih]
      rfl

end Part

/-! ## An event without a digest -/

section Undigested
variable {expected : List ReportedEvent} {calculated : List EventEntry} {e : ReportedEvent}

theorem lacksDigest_of_mem {events : List ReportedEvent} {entries : List EventEntry} (he : e ∈ events)
    (hnone : e.digest = none) (hlen : events.length ≤ entries.length) : lacksDigest events entries = true := by
  rw [← List.map_fst_zip hlen] at he
  obtain ⟨⟨_, c⟩, hpair, rfl⟩ := List.mem_map.mp he
  exact lacksDigest_iff.mpr ⟨_, c, hpair, hnone⟩

/-- Some choice with one side whole pairs the event. -/
theorem exists_oneSide_of_mem (hentries : calculated ≠ []) (he : e ∈ expected) :
    ∃ s ∈ oneSide expected.length calculated.length, e ∈ kept s.1 expected := by
  have hpos : 0 < calculated.length := List.length_pos_iff.mpr hentries
  by_cases hlt : calculated.length < expected.length
  · obtain ⟨part, hsub, hlen, hmem⟩ := exists_sublist_of_mem he hpos hlt.le
    obtain ⟨es, hset, hkept⟩ := exists_kept_eq hsub
    have hskipped := hset.length_kept
    rw [hkept, hlen] at hskipped
    have hbalances : Balances expected.length calculated.length (es, []) :=
      ⟨hset, isIndexSet_nil _, by simp only [List.length_nil]; omega⟩
    exact ⟨(es, []), mem_oneSide.mpr ⟨hbalances, .inr rfl⟩, hkept ▸ hmem⟩
  · obtain ⟨s, hs⟩ := List.exists_mem_of_ne_nil _ (oneSide_ne_nil expected.length calculated.length)
    obtain ⟨hbalances, hone⟩ := mem_oneSide.mp hs
    have hbalance := hbalances.balance
    have hnil : s.1 = [] := by
      rcases hone with hnil | hnil
      · exact hnil
      · rw [hnil, List.length_nil] at hbalance
        exact List.length_eq_zero_iff.mp (by omega)
    exact ⟨s, hs, by rwa [hnil, kept_nil]⟩

theorem attemptOn_of_lacksDigest {s : List Nat × List Nat} {best : Option Alignment}
    (hs : Balances expected.length calculated.length s) (hbest : isPerfect best = false)
    (hlacks : lacksDigest (kept s.1 expected) (kept s.2 calculated) = true) :
    attemptOn expected calculated best s = .error undigested := by
  rw [attemptOn_of_imperfect hbest, consider, costOf_eq hs.fst hs.snd, costOfKept, if_pos hlacks]
  rfl

/-- A choice that does not pair the event skips something, so it is not free. -/
theorem attemptOn_of_undigested {s : List Nat × List Nat} {best : Option Alignment}
    (hs : Balances expected.length calculated.length s) (hbest : isPerfect best = false) (he : e ∈ expected)
    (hnone : e.digest = none) :
    attemptOn expected calculated best s = .error undigested ∨
      ∃ best', attemptOn expected calculated best s = .ok best' ∧ isPerfect best' = false := by
  by_cases hlacks : lacksDigest (kept s.1 expected) (kept s.2 calculated) = true
  · exact .inl (attemptOn_of_lacksDigest hs hbest hlacks)
  · have hcost : costOf expected s.1 calculated s.2 = .ok (distance expected s.1 calculated s.2) := by
      rw [costOf_eq hs.fst hs.snd, costOfKept, if_neg hlacks, if_pos hs.length_eq, distance]
    have hpositive : distance expected s.1 calculated s.2 ≠ 0 := by
      intro hfree
      obtain ⟨hskipped, -⟩ := Nat.add_eq_zero_iff.mp hfree
      have hfew := (Nat.mul_eq_zero.mp hskipped).resolve_left (by decide)
      have hevents : s.1 = [] := List.length_eq_zero_iff.mp (by omega)
      have hpaired : e ∈ kept s.1 expected := by rwa [hevents, kept_nil]
      exact hlacks (lacksDigest_of_mem hpaired hnone hs.length_eq.le)
    refine .inr ⟨better best (alignmentOf expected calculated s), ?_, isPerfect_better hbest hpositive⟩
    rw [attemptOn_of_imperfect hbest, consider, hcost]
    rfl

/-- The search ends with the first pair that cannot be compared. -/
theorem search_of_undigested (hentries : calculated ≠ []) (he : e ∈ expected) (hnone : e.digest = none)
    (maxSkipped : Int) : search expected calculated maxSkipped = .error undigested := by
  obtain ⟨s, hs, hpaired⟩ := exists_oneSide_of_mem hentries he
  have hbalances := (mem_oneSide.mp hs).1
  have hlacks := lacksDigest_of_mem hpaired hnone hbalances.length_eq.le
  have hside : tryOneSide expected calculated = .error undigested := by
    rw [tryOneSide_eq_foldlM]
    exact foldlM_of_error (P := fun best => isPerfect best = false) hs
      (fun best hbest => attemptOn_of_lacksDigest hbalances hbest hlacks)
      (fun t ht best hbest => attemptOn_of_undigested (mem_oneSide.mp ht).1 hbest he hnone) rfl
  rw [search, hside]
  rfl

/-- Nothing but an event without a digest, when there is an entry to pair with, keeps the search from answering. -/
theorem search_fails_iff (maxSkipped : Int) : (∃ f, search expected calculated maxSkipped = .error f) ↔
    calculated ≠ [] ∧ ∃ e ∈ expected, e.digest = none := by
  constructor
  · intro ⟨f, hf⟩
    have hnot : ¬ Comparable expected calculated := by
      intro hcomparable
      obtain ⟨s, -, hsearch, -⟩ := exists_search_least hcomparable maxSkipped
      rw [hsearch] at hf
      cases hf
    simpa only [Comparable, Classical.not_imp, not_forall, Option.not_isSome_iff_eq_none, exists_prop]
      using hnot
  · intro ⟨hentries, e, he, hnone⟩
    exact ⟨_, search_of_undigested hentries he hnone maxSkipped⟩

end Undigested

/-! ## Agreement -/

/-- An event and an entry with the same digest and type. -/
def Agree (e : ReportedEvent) (c : EventEntry) : Prop := e.digestValue = c.digest ∧ e.type = c.type

theorem mismatchCost_eq_zero_iff {e : ReportedEvent} {c : EventEntry} : mismatchCost e c = 0 ↔ Agree e c := by
  unfold mismatchCost Agree
  by_cases hdigest : e.digestValue = c.digest
  · by_cases htype : e.type = c.type <;> simp [hdigest, htype]
  · simp [hdigest, skipCost]

/-- One log consists of some items of the other, in order. -/
def IsPartOfOther (expected : List ReportedEvent) (calculated : List EventEntry) : Prop :=
  expected.SublistForall₂ Agree calculated ∨ calculated.SublistForall₂ (fun c e => Agree e c) expected

section Mismatches
variable {expected : List ReportedEvent} {calculated : List EventEntry}

theorem sum_mismatchCost_eq_zero_iff {es : List ReportedEvent} {cs : List EventEntry} :
    (List.zipWith mismatchCost es cs).sum = 0 ↔ ∀ e c, (e, c) ∈ es.zip cs → Agree e c := by
  rw [← List.map_uncurry_zip_eq_zipWith, List.sum_eq_zero_iff_forall_eq_nat]
  simp only [List.mem_map, Prod.exists, Function.uncurry_apply_pair]
  constructor
  · intro h e c hmem
    exact mismatchCost_eq_zero_iff.mp (h _ ⟨e, c, hmem, rfl⟩)
  · intro h cost ⟨e, c, hmem, hcost⟩
    rw [← hcost]
    exact mismatchCost_eq_zero_iff.mpr (h e c hmem)

theorem sum_mismatchCost_of_forall₂ {es : List ReportedEvent} {cs : List EventEntry}
    (h : List.Forall₂ Agree es cs) : (List.zipWith mismatchCost es cs).sum = 0 :=
  sum_mismatchCost_eq_zero_iff.mpr fun _ _ hmem => (List.forall₂_iff_zip.mp h).2 hmem

theorem exists_tried_of_part (h : IsPartOfOther expected calculated) (maxSkipped : Int) :
    ∃ t ∈ tried expected.length calculated.length maxSkipped, (t.1 = [] ∨ t.2 = []) ∧
      distance expected t.1 calculated t.2 = skipCost * (t.1.length + t.2.length) := by
  rcases h with hpart | hpart
  · obtain ⟨part, hagree, hsub⟩ := List.sublistForall₂_iff.mp hpart
    obtain ⟨cs, hset, hkept⟩ := exists_kept_eq hsub
    have hlen := hset.length_kept
    rw [hkept, ← hagree.length_eq] at hlen
    have hbalances : Balances expected.length calculated.length ([], cs) :=
      ⟨isIndexSet_nil _, hset, by simp only [List.length_nil]; omega⟩
    refine ⟨([], cs), mem_tried.mpr ⟨hbalances, .inr (.inl rfl)⟩, .inl rfl, ?_⟩
    rw [distance, distanceOf, kept_nil, hkept, sum_mismatchCost_of_forall₂ hagree, Nat.add_zero]
  · obtain ⟨part, hagree, hsub⟩ := List.sublistForall₂_iff.mp hpart
    obtain ⟨es, hset, hkept⟩ := exists_kept_eq hsub
    have hlen := hset.length_kept
    rw [hkept, ← hagree.length_eq] at hlen
    have hbalances : Balances expected.length calculated.length (es, []) :=
      ⟨hset, isIndexSet_nil _, by simp only [List.length_nil]; omega⟩
    refine ⟨(es, []), mem_tried.mpr ⟨hbalances, .inr (.inr rfl)⟩, .inr rfl, ?_⟩
    rw [distance, distanceOf, kept_nil, hkept, sum_mismatchCost_of_forall₂ hagree.flip, Nat.add_zero]

/-- An alignment that costs no more than skipping the fewest items has no pair that disagrees. -/
theorem agree_of_distance_le {s t : List Nat × List Nat}
    (hs : Balances expected.length calculated.length s)
    (ht : Balances expected.length calculated.length t) (hone : t.1 = [] ∨ t.2 = [])
    (hle : distance expected s.1 calculated s.2 ≤ skipCost * (t.1.length + t.2.length)) :
    ∀ e c, (e, c) ∈ (kept s.1 expected).zip (kept s.2 calculated) → Agree e c := by
  have hfewest : t.1.length + t.2.length ≤ s.1.length + s.2.length := by
    have hsb := hs.balance
    have htb := ht.balance
    rcases hone with hnil | hnil
    · rw [hnil, List.length_nil] at htb ⊢
      omega
    · rw [hnil, List.length_nil] at htb ⊢
      omega
  have hzero : (List.zipWith mismatchCost (kept s.1 expected) (kept s.2 calculated)).sum = 0 := by
    have hmul := Nat.mul_le_mul_left skipCost hfewest
    rw [distance, distanceOf] at hle
    omega
  exact sum_mismatchCost_eq_zero_iff.mp hzero

end Mismatches

/-- A search for an alignment answers if every event has a digest, or if there is no entry to pair with, and its
answer are positions of both logs that leave equally many of either. Its cost is that of the alignment, and no other
choice with one side whole, or with few enough events skipped, costs less. If one log is part of the other, no pair of
the alignment disagrees. -/
theorem search_minimal {expected : List ReportedEvent} {calculated : List EventEntry}
    (hcomparable : Comparable expected calculated) (maxSkipped : Int) :
    ∃ a, search expected calculated maxSkipped = .ok a ∧
      IsIndexSet expected.length a.skippedEvents ∧ IsIndexSet calculated.length a.skippedEntries ∧
      (kept a.skippedEvents expected).length = (kept a.skippedEntries calculated).length ∧
      costOf expected a.skippedEvents calculated a.skippedEntries = .ok a.cost ∧
      (∀ es cs, IsIndexSet expected.length es → IsIndexSet calculated.length cs →
        (es.length : Int) - cs.length = expected.length - calculated.length →
        es.length ≤ maxSkipped ∨ es = [] ∨ cs = [] →
          ∃ cost, costOf expected es calculated cs = .ok cost ∧ a.cost ≤ cost) ∧
      (IsPartOfOther expected calculated →
        ∀ e c, (some c, some e) ∈ a.pairs expected calculated → Agree e c) := by
  obtain ⟨s, hs, hsearch, hleast⟩ := exists_search_least hcomparable maxSkipped
  have hbalances := (mem_tried.mp hs).1
  refine ⟨_, hsearch, hbalances.fst, hbalances.snd, hbalances.length_eq,
    costOf_of_balances hcomparable hbalances, ?_, ?_⟩
  · intro es cs hes hcs hdiff hbound
    have ht : Balances expected.length calculated.length (es, cs) :=
      ⟨hes, hcs, by simp only; omega⟩
    exact ⟨_, costOf_of_balances hcomparable ht, hleast (es, cs) (mem_tried.mpr ⟨ht, hbound⟩)⟩
  · intro hpart e c hpair
    obtain ⟨t, ht, hone, hcost⟩ := exists_tried_of_part hpart maxSkipped
    have hagree := agree_of_distance_le hbalances (mem_tried.mp ht).1 hone (hcost ▸ hleast t ht)
    have hzip : (e, c) ∈ ((alignmentOf expected calculated s).pairs expected calculated).filterMap both? :=
      List.mem_filterMap.mpr ⟨_, hpair, rfl⟩
    rw [pairs, filterMap_pairFrom] at hzip
    exact hagree e c hzip

/-- Two simulated entries that agree with the second event and the last one. -/
def twoEntries : List EventEntry := [⟨0, .sha1, [2], .separator, none⟩, ⟨0, .sha1, [4], .postCode, none⟩]

/-- Two events are skipped, although no more than one may be if entries are skipped too, and what is paired agrees. -/
theorem search_minimal_two_entries :
    Comparable fourEvents twoEntries ∧ IsPartOfOther fourEvents twoEntries ∧
      ∃ a, search fourEvents twoEntries 1 = .ok a ∧
        (∃ cost, costOf fourEvents [0, 2] twoEntries [] = .ok cost ∧ a.cost ≤ cost) ∧
        ∀ e c, (some c, some e) ∈ a.pairs fourEvents twoEntries → Agree e c := by
  have hcomparable : Comparable fourEvents twoEntries := fun _ => by decide
  have hpart : IsPartOfOther fourEvents twoEntries :=
    .inr (.cons_right (.cons ⟨rfl, rfl⟩ (.cons_right (.cons ⟨rfl, rfl⟩ .nil))))
  obtain ⟨a, hsearch, -, -, -, -, hleast, hagree⟩ := search_minimal hcomparable 1
  have hfree := hleast [0, 2] [] ⟨by decide, by decide⟩ (isIndexSet_nil _) rfl (.inr (.inr rfl))
  exact ⟨hcomparable, hpart, a, hsearch, hfree, hagree hpart⟩

end MeasuredBoot.Alignment
