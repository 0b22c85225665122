import Mathlib.Algebra.BigOperators.Fin
import Mathlib.Algebra.GroupWithZero.Nat
import Mathlib.Data.List.Sort
import MeasuredBoot.Reproduce.Alignment

/-!
# The cost of an alignment

The cost of an alignment is found by walking along both logs at once. It depends on nothing but what is
left of either log after skipping: if equally many events and entries are left, they are paired in order,
and each skipped item and each pair adds its part; otherwise the alignment has no cost. The order in which
the skipped positions are listed is of no matter.
-/
namespace MeasuredBoot.Alignment

/-! ## What is left of a log -/

section Kept
variable {α : Type}

/-- The items whose positions are not skipped, the first one standing at position `i`. -/
def keptFrom (skipped : List Nat) : (i : Nat) → List α → List α
  | _, [] => []
  | i, x :: rest =>
    if skipped.contains i then keptFrom skipped (i + 1) rest else x :: keptFrom skipped (i + 1) rest

def kept (skipped : List Nat) (xs : List α) : List α := keptFrom skipped 0 xs

theorem keptFrom_of_skipped {skipped : List Nat} {i : Nat} (x : α) (rest : List α)
    (h : skipped.contains i = true) :
    keptFrom skipped i (x :: rest) = keptFrom skipped (i + 1) rest := by
  rw [keptFrom, if_pos h]

theorem keptFrom_of_kept {skipped : List Nat} {i : Nat} (x : α) (rest : List α)
    (h : ¬ skipped.contains i = true) :
    keptFrom skipped i (x :: rest) = x :: keptFrom skipped (i + 1) rest := by
  rw [keptFrom, if_neg h]

theorem keptFrom_nil (i : Nat) (xs : List α) : keptFrom [] i xs = xs := by
  induction xs generalizing i with
  | nil => rfl
  | cons x rest ih => rw [keptFrom_of_kept x rest (by simp), ih]

theorem kept_nil (xs : List α) : kept [] xs = xs := keptFrom_nil 0 xs

theorem keptFrom_sublist (skipped : List Nat) (i : Nat) (xs : List α) :
    (keptFrom skipped i xs).Sublist xs := by
  induction xs generalizing i with
  | nil => exact .slnil
  | cons x rest ih =>
      rw [keptFrom]
      split
      · exact (ih (i + 1)).cons x
      · exact (ih (i + 1)).cons_cons x

theorem mem_of_mem_kept {skipped : List Nat} {xs : List α} {x : α} (h : x ∈ kept skipped xs) : x ∈ xs :=
  (keptFrom_sublist skipped 0 xs).subset h

/-- How many of `n` positions, the first one being `i`, are skipped. -/
def skippedFrom (skipped : List Nat) (i n : Nat) : Nat :=
  (List.range' i n).countP skipped.contains

theorem skippedFrom_succ (skipped : List Nat) (i n : Nat) :
    skippedFrom skipped i (n + 1) =
      skippedFrom skipped (i + 1) n + if skipped.contains i then 1 else 0 := by
  rw [skippedFrom, List.range'_succ, List.countP_cons, skippedFrom]

theorem length_keptFrom (skipped : List Nat) (i : Nat) (xs : List α) :
    (keptFrom skipped i xs).length + skippedFrom skipped i xs.length = xs.length := by
  induction xs generalizing i with
  | nil => rfl
  | cons x rest ih =>
      have hrest := ih (i + 1)
      rw [List.length_cons, skippedFrom_succ]
      by_cases h : skipped.contains i = true
      · rw [keptFrom_of_skipped x rest h, if_pos h]
        omega
      · rw [keptFrom_of_kept x rest h, if_neg h, List.length_cons]
        omega

theorem skippedFrom_eq_card {n : Nat} {c : List Nat} (h : ∀ i ∈ c, i < n) :
    skippedFrom c 0 n = c.toFinset.card := by
  have hnodup : ((List.range' 0 n).filter c.contains).Nodup := List.Nodup.filter _ List.nodup_range'
  have hmem : ((List.range' 0 n).filter c.contains).toFinset = c.toFinset := by
    ext i
    have hlt := h i
    simp only [List.mem_toFinset, List.mem_filter, List.mem_range'_1, List.contains_iff_mem]
    constructor
    · exact And.right
    · intro hi
      exact ⟨⟨Nat.zero_le i, by have := hlt hi; omega⟩, hi⟩
  rw [skippedFrom, List.countP_eq_length_filter, ← List.toFinset_card_of_nodup hnodup, hmem]

/-- Positions in a list of `n` items, in increasing order. -/
structure IsIndexSet (n : Nat) (c : List Nat) : Prop where
  increasing : c.Pairwise (· < ·)
  lt : ∀ i ∈ c, i < n

theorem isIndexSet_nil (n : Nat) : IsIndexSet n [] := ⟨.nil, by simp⟩

theorem IsIndexSet.card_toFinset {n : Nat} {c : List Nat} (h : IsIndexSet n c) :
    c.toFinset.card = c.length :=
  List.toFinset_card_of_nodup (h.increasing.imp Nat.ne_of_lt)

theorem IsIndexSet.skipped_eq {n : Nat} {c : List Nat} (h : IsIndexSet n c) :
    skippedFrom c 0 n = c.length := by
  rw [skippedFrom_eq_card h.lt, h.card_toFinset]

theorem IsIndexSet.length_kept {xs : List α} {c : List Nat} (h : IsIndexSet xs.length c) :
    (kept c xs).length + c.length = xs.length := by
  have hlen := length_keptFrom c 0 xs
  rwa [h.skipped_eq] at hlen

end Kept

/-! ## Pairs -/

section Pairs
variable {e : ReportedEvent} {c : EventEntry}

/-- The cost of a pair that can be compared. -/
def mismatchCost (e : ReportedEvent) (c : EventEntry) : Nat :=
  (if e.digestValue ≠ c.digest then 2 * skipCost - 1 else 0) + (if e.type ≠ c.type then 2 else 0)

def undigested : Fault := .argument (.noDigest "value")

theorem pairCost_of_isSome (h : e.digest.isSome = true) (c : EventEntry) :
    pairCost e c = .ok (mismatchCost e c) := by
  obtain ⟨d, hd⟩ := Option.isSome_iff_exists.mp h
  rw [pairCost, ReportedEvent.givenDigest, hd, mismatchCost, ReportedEvent.digestValue, hd]
  rfl

theorem pairCost_of_none (h : e.digest = none) (c : EventEntry) : pairCost e c = .error undigested := by
  rw [pairCost, ReportedEvent.givenDigest, h]
  rfl

def lacksDigest (events : List ReportedEvent) (entries : List EventEntry) : Bool :=
  (events.zip entries).any fun p => p.1.digest.isNone

theorem lacksDigest_cons (e : ReportedEvent) (events : List ReportedEvent) (c : EventEntry)
    (entries : List EventEntry) :
    lacksDigest (e :: events) (c :: entries) = (e.digest.isNone || lacksDigest events entries) := by
  rw [lacksDigest, List.zip_cons_cons, List.any_cons, lacksDigest]

theorem lacksDigest_iff {events : List ReportedEvent} {entries : List EventEntry} :
    lacksDigest events entries = true ↔ ∃ e c, (e, c) ∈ events.zip entries ∧ e.digest = none := by
  simp only [lacksDigest, List.any_eq_true, Option.isNone_iff_eq_none, Prod.exists]

end Pairs

/-! ## The cost -/

/-- The cost of skipping some items and pairing the others. -/
def distanceOf (skipped : Nat) (events : List ReportedEvent) (entries : List EventEntry) : Nat :=
  skipCost * skipped + (List.zipWith mismatchCost events entries).sum

theorem distanceOf_succ (skipped : Nat) (events : List ReportedEvent) (entries : List EventEntry) :
    distanceOf (skipped + 1) events entries = skipCost + distanceOf skipped events entries := by
  rw [distanceOf, distanceOf, Nat.mul_succ]
  omega

theorem distanceOf_cons (skipped : Nat) (e : ReportedEvent) (events : List ReportedEvent)
    (c : EventEntry) (entries : List EventEntry) :
    distanceOf skipped (e :: events) (c :: entries) =
      mismatchCost e c + distanceOf skipped events entries := by
  rw [distanceOf, distanceOf, List.zipWith_cons_cons, List.sum_cons]
  omega

/-- The cost of what is left of both logs. A pair that cannot be compared is met before an item without a
partner, for this stands behind all pairs. -/
def costOfKept (skipped : Nat) (events : List ReportedEvent) (entries : List EventEntry) :
    Except Fault Nat :=
  if lacksDigest events entries then .error undigested
  else if events.length = entries.length then .ok (distanceOf skipped events entries)
  else .error (.search .unequalLogs)

theorem costOfKept_succ (skipped : Nat) (events : List ReportedEvent) (entries : List EventEntry) :
    costOfKept (skipped + 1) events entries =
      (do return skipCost + (← costOfKept skipped events entries)) := by
  rw [costOfKept, costOfKept, distanceOf_succ]
  split
  · rfl
  · split <;> rfl

theorem costOfKept_cons (skipped : Nat) (e : ReportedEvent) (events : List ReportedEvent)
    (c : EventEntry) (entries : List EventEntry) :
    costOfKept skipped (e :: events) (c :: entries) =
      (do let cost ← pairCost e c; return cost + (← costOfKept skipped events entries)) := by
  rw [costOfKept, costOfKept, lacksDigest_cons, List.length_cons, List.length_cons, distanceOf_cons]
  cases hd : e.digest with
  | none =>
      rw [pairCost_of_none hd]
      rfl
  | some d =>
      rw [pairCost_of_isSome (by rw [hd]; rfl)]
      simp only [Option.isNone_some, Bool.false_or, Nat.add_right_cancel_iff]
      split
      · rfl
      · split <;> rfl

theorem costOfKept_fails_iff (skipped : Nat) {events : List ReportedEvent} {entries : List EventEntry} :
    (∃ f, costOfKept skipped events entries = .error f ∧ f.kind = "AttributeError") ↔
      lacksDigest events entries = true := by
  unfold costOfKept
  split
  · rename_i hlacks
    exact iff_of_true ⟨_, rfl, rfl⟩ hlacks
  · rename_i hlacks
    apply iff_of_false _ hlacks
    intro ⟨f, hf, hkind⟩
    split at hf
    · cases hf
    · cases hf
      exact absurd hkind (by decide)

theorem costOfKept_of_digests (skipped : Nat) {events : List ReportedEvent} {entries : List EventEntry}
    (h : ∀ e c, (e, c) ∈ events.zip entries → e.digest.isSome = true) :
    costOfKept skipped events entries =
      if events.length = entries.length then .ok (distanceOf skipped events entries)
      else .error (.search .unequalLogs) := by
  apply if_neg
  intro hlacks
  obtain ⟨e, c, hpair, hnone⟩ := lacksDigest_iff.mp hlacks
  simpa [hnone] using h e c hpair

section Cost
variable (skippedEvents skippedEntries : List Nat)

def measuredCost (i : Nat) (es : List ReportedEvent) (k : Nat) (cs : List EventEntry) :
    Except Fault Nat :=
  costOfKept (skippedFrom skippedEvents i es.length + skippedFrom skippedEntries k cs.length)
    (keptFrom skippedEvents i es) (keptFrom skippedEntries k cs)

theorem measuredCost_skip_entry (i : Nat) (es : List ReportedEvent) {k : Nat} (c : EventEntry)
    (cs : List EventEntry) (h : skippedEntries.contains k = true) :
    measuredCost skippedEvents skippedEntries i es k (c :: cs) =
      (do return skipCost + (← measuredCost skippedEvents skippedEntries i es (k + 1) cs)) := by
  rw [measuredCost, measuredCost, keptFrom_of_skipped c cs h, List.length_cons, skippedFrom_succ,
    if_pos h, ← Nat.add_assoc, costOfKept_succ]

theorem measuredCost_skip_event {i : Nat} (e : ReportedEvent) (es : List ReportedEvent) (k : Nat)
    (cs : List EventEntry) (h : skippedEvents.contains i = true) :
    measuredCost skippedEvents skippedEntries i (e :: es) k cs =
      (do return skipCost + (← measuredCost skippedEvents skippedEntries (i + 1) es k cs)) := by
  rw [measuredCost, measuredCost, keptFrom_of_skipped e es h, List.length_cons, skippedFrom_succ,
    if_pos h, Nat.add_right_comm, costOfKept_succ]

theorem measuredCost_pair {i : Nat} (e : ReportedEvent) (es : List ReportedEvent) {k : Nat}
    (c : EventEntry) (cs : List EventEntry) (hi : ¬ skippedEvents.contains i = true)
    (hk : ¬ skippedEntries.contains k = true) :
    measuredCost skippedEvents skippedEntries i (e :: es) k (c :: cs) =
      (do let cost ← pairCost e c
          return cost + (← measuredCost skippedEvents skippedEntries (i + 1) es (k + 1) cs)) := by
  rw [measuredCost, measuredCost, keptFrom_of_kept e es hi, keptFrom_of_kept c cs hk, List.length_cons,
    List.length_cons, skippedFrom_succ, skippedFrom_succ, if_neg hi, if_neg hk, costOfKept_cons]
  rfl

/-- The walk along both logs pairs what is left of them, in order. -/
theorem costFrom_eq (i : Nat) (es : List ReportedEvent) (k : Nat) (cs : List EventEntry) :
    costFrom skippedEvents skippedEntries i es k cs =
      measuredCost skippedEvents skippedEntries i es k cs := by
  fun_induction costFrom skippedEvents skippedEntries i es k cs with
  | case1 i k => rfl
  | case2 i k c cs hk ih => rw [measuredCost_skip_entry _ _ i [] c cs hk, ih]
  | case3 i k c cs hk =>
      rw [measuredCost, keptFrom_of_kept c cs hk]
      rfl
  | case4 i e es k hi ih => rw [measuredCost_skip_event _ _ e es k [] hi, ih]
  | case5 i e es k hi =>
      rw [measuredCost, keptFrom_of_kept e es hi]
      rfl
  | case6 i e es k c cs hk ih => rw [measuredCost_skip_entry _ _ i (e :: es) c cs hk, ih]
  | case7 i e es k c cs hk hi ih => rw [measuredCost_skip_event _ _ e es k (c :: cs) hi, ih]
  | case8 i e es k c cs hk hi ih => simp only [measuredCost_pair _ _ e es c cs hi hk, ih]

end Cost

def distance (expected : List ReportedEvent) (skippedEvents : List Nat) (calculated : List EventEntry)
    (skippedEntries : List Nat) : Nat :=
  distanceOf (skippedEvents.length + skippedEntries.length) (kept skippedEvents expected)
    (kept skippedEntries calculated)

/-- Positions may be listed in any order: each that is skipped counts once. -/
theorem costOf_of_lt {expected : List ReportedEvent} {calculated : List EventEntry}
    {skippedEvents skippedEntries : List Nat} (hevents : ∀ i ∈ skippedEvents, i < expected.length)
    (hentries : ∀ k ∈ skippedEntries, k < calculated.length) :
    costOf expected skippedEvents calculated skippedEntries =
      costOfKept (skippedEvents.toFinset.card + skippedEntries.toFinset.card) (kept skippedEvents expected)
        (kept skippedEntries calculated) := by
  rw [costOf, costFrom_eq, measuredCost, skippedFrom_eq_card hevents, skippedFrom_eq_card hentries, kept, kept]

theorem costOf_eq {expected : List ReportedEvent} {calculated : List EventEntry}
    {skippedEvents skippedEntries : List Nat} (hevents : IsIndexSet expected.length skippedEvents)
    (hentries : IsIndexSet calculated.length skippedEntries) :
    costOf expected skippedEvents calculated skippedEntries =
      costOfKept (skippedEvents.length + skippedEntries.length) (kept skippedEvents expected)
        (kept skippedEntries calculated) := by
  rw [costOf_of_lt hevents.lt hentries.lt, hevents.card_toFinset, hentries.card_toFinset]

/-! ## The cost place by place -/

theorem sum_zipWith_eq_sum {α β : Type} (f : α → β → Nat) {xs : List α} {ys : List β}
    (h : xs.length = ys.length) :
    (List.zipWith f xs ys).sum = ∑ i : Fin xs.length, f (xs.get i) (ys.get (i.cast h)) := by
  have hzip : List.zipWith f xs ys =
      List.ofFn fun i : Fin xs.length => f (xs.get i) (ys.get (i.cast h)) := by
    apply List.ext_get
    · simp [h]
    · intro i hi hi'
      simp
  rw [hzip, List.sum_ofFn]

section ClosedForm
variable {expected : List ReportedEvent} {calculated : List EventEntry} {skippedEvents skippedEntries : List Nat}

/-- Skipping any positions of both logs fails for want of a digest exactly if an event among those left has none and
is paired. -/
theorem costOf_fails_iff (hevents : ∀ i ∈ skippedEvents, i < expected.length)
    (hentries : ∀ k ∈ skippedEntries, k < calculated.length) :
    (∃ f, costOf expected skippedEvents calculated skippedEntries = .error f ∧ f.kind = "AttributeError") ↔
      ∃ e c, (e, c) ∈ (kept skippedEvents expected).zip (kept skippedEntries calculated) ∧
        e.digest = none := by
  rw [costOf_of_lt hevents hentries, ← lacksDigest_iff]
  exact costOfKept_fails_iff _

/-- If all events that are paired have a digest, skipping any positions of both logs fails exactly if not equally many
events and entries are left. Otherwise the cost is that of every position that is skipped, and of every place at which
the event and the entry among those left have different digests or different types. -/
theorem costOf_closed_form (hevents : ∀ i ∈ skippedEvents, i < expected.length)
    (hentries : ∀ k ∈ skippedEntries, k < calculated.length)
    (hdigests : ∀ e c, (e, c) ∈ (kept skippedEvents expected).zip (kept skippedEntries calculated) →
      e.digest.isSome = true) :
    ((∃ f, costOf expected skippedEvents calculated skippedEntries = .error f ∧ f.kind = "BruteForceError") ↔
      (kept skippedEvents expected).length ≠ (kept skippedEntries calculated).length) ∧
    ∀ h : (kept skippedEvents expected).length = (kept skippedEntries calculated).length,
      costOf expected skippedEvents calculated skippedEntries =
        .ok (skipCost * (skippedEvents.toFinset.card + skippedEntries.toFinset.card) +
          ∑ i : Fin (kept skippedEvents expected).length,
            ((if ((kept skippedEvents expected).get i).digestValue ≠
                ((kept skippedEntries calculated).get (i.cast h)).digest then 2 * skipCost - 1 else 0) +
              (if ((kept skippedEvents expected).get i).type ≠
                ((kept skippedEntries calculated).get (i.cast h)).type then 2 else 0))) := by
  rw [costOf_of_lt hevents hentries, costOfKept_of_digests _ hdigests]
  constructor
  · by_cases h : (kept skippedEvents expected).length = (kept skippedEntries calculated).length
    · rw [if_pos h]
      apply iff_of_false _ (not_not.mpr h)
      intro ⟨f, hf, _⟩
      cases hf
    · rw [if_neg h]
      exact iff_of_true ⟨_, rfl, rfl⟩ h
  · intro h
    rw [if_pos h, distanceOf, sum_zipWith_eq_sum mismatchCost h]
    rfl

end ClosedForm

def fourEvents : List ReportedEvent := [
  ⟨0, .postCode, [], some ⟨.sha1, [1]⟩⟩, ⟨0, .separator, [], some ⟨.sha1, [2]⟩⟩,
  ⟨0, .crtmVersion, [], some ⟨.sha1, [3]⟩⟩, ⟨0, .postCode, [], some ⟨.sha1, [4]⟩⟩]

/-- Three simulated entries, the first with the type of the second event, the last with the digest of the last. -/
def threeEntries : List EventEntry := [
  ⟨0, .sha1, [5], .separator, none⟩, ⟨0, .sha1, [6], .postCode, none⟩,
  ⟨0, .sha1, [4], .separator, none⟩]

/-- Two of the events are skipped, one of them listed twice, and one of the entries. Of the two pairs left, one
differs in its digests and the other in its types. With nothing skipped, there is no cost. -/
theorem costOf_closed_form_listed_twice :
    ((∀ i ∈ [2, 0, 2], i < fourEvents.length) ∧ (∀ k ∈ [1], k < threeEntries.length) ∧
      (∀ e c, (e, c) ∈ (kept [2, 0, 2] fourEvents).zip (kept [1] threeEntries) → e.digest.isSome = true) ∧
      costOf fourEvents [2, 0, 2] threeEntries [1] = .ok (skipCost * 3 + (2 * skipCost - 1) + 2)) ∧
    ∃ f, costOf fourEvents [] threeEntries [] = .error f ∧ f.kind = "BruteForceError" := by
  have hevents : ∀ i ∈ [2, 0, 2], i < fourEvents.length := by decide
  have hentries : ∀ k ∈ [1], k < threeEntries.length := by decide
  have hdigests : ∀ e ∈ fourEvents, e.digest.isSome = true := by decide
  have hpaired {skipped : List Nat} {entries : List EventEntry} :
      ∀ e c, (e, c) ∈ (kept skipped fourEvents).zip entries → e.digest.isSome = true :=
    fun e c h => hdigests e (mem_of_mem_kept (List.of_mem_zip h).1)
  constructor
  · exact ⟨hevents, hentries, hpaired, (costOf_closed_form hevents hentries hpaired).2 (by decide)⟩
  · exact (costOf_closed_form (by simp) (by simp) hpaired).1.mpr (by decide)

end MeasuredBoot.Alignment
