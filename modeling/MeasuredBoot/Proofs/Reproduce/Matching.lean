import MeasuredBoot.Proofs.Reproduce.Aligned
import MeasuredBoot.Proofs.Tpm.Announced

/-!
# Logs that match

A reported log that agrees with the traced entries, event by event, is aligned with them without skipping
anything, since nothing costs less, and every pair matches. What is then replayed are the entries themselves:
the announcement turns back into the start that it reports, and every other entry into its extend. So the
replay leads to the hash chain over the digests behind the announcement.
-/
namespace MeasuredBoot

/-! ## The alignment -/

namespace Alignment
variable {expected : List ReportedEvent} {calculated : List EventEntry}

theorem comparable_filterEvents (l : ReportedLog) (pcr : Int) (a : Algorithm) (calculated : List EventEntry) :
    Comparable (l.filterEvents pcr a) calculated := by
  intro _ e he
  have hselected : e.isOf pcr a = true := (List.mem_filter.mp he).2
  rw [ReportedEvent.isOf, Bool.and_eq_true] at hselected
  exact Option.isSome_of_any hselected.2

/-- Logs of the same length are aligned without skipping anything if their pairs cost less than two skipped
items, which is the least that any other alignment costs. -/
theorem search_of_cheap (hlength : expected.length = calculated.length)
    (hcomparable : Comparable expected calculated)
    (hcheap : (List.zipWith mismatchCost expected calculated).sum < 2 * skipCost) (maxSkipped : Int) :
    search expected calculated maxSkipped =
      .ok ⟨[], [], (List.zipWith mismatchCost expected calculated).sum⟩ := by
  have hbalances : Balances expected.length calculated.length ([], []) :=
    ⟨isIndexSet_nil _, isIndexSet_nil _, by simp only [List.length_nil, hlength]⟩
  have hcost : distance expected [] calculated [] =
      (List.zipWith mismatchCost expected calculated).sum := by
    rw [distance, distanceOf, kept_nil, kept_nil, List.length_nil, Nat.add_zero, Nat.mul_zero, Nat.zero_add]
  obtain ⟨s, hs, hsearch, hleast⟩ := exists_search_least hcomparable maxSkipped
  have hbest := hleast ([], []) (mem_tried.mpr ⟨hbalances, .inr (.inl rfl)⟩)
  have hfew : s.1.length + s.2.length < 2 := by
    have hskipped : skipCost * (s.1.length + s.2.length) < skipCost * 2 := by
      rw [hcost, distance, distanceOf] at hbest
      omega
    exact Nat.lt_of_mul_lt_mul_left hskipped
  have hbalance := (mem_tried.mp hs).1.balance
  obtain ⟨es, cs⟩ := s
  simp only at hfew hbalance
  obtain rfl : es = [] := List.length_eq_zero_iff.mp (by omega)
  obtain rfl : cs = [] := List.length_eq_zero_iff.mp (by omega)
  rw [hsearch, alignmentOf, hcost]

end Alignment

/-! ## The reconciliation -/

namespace Reconciliation
variable {s : State} {bounds : ReconciliationBounds} {a : Algorithm}

/-- A reconciliation that goes on with pairs which match. -/
def addMatched (r : Reconciliation) (pairs : List (TracedEntry × ReportedEvent)) : Reconciliation :=
  { r with entries := r.entries ++ pairs.map fun p => .matched p.1 p.2 }

theorem addMatched_nil (r : Reconciliation) : r.addMatched [] = r := by
  rw [addMatched, List.map_nil, List.append_nil]

theorem addMatched_cons (r : Reconciliation) (p : TracedEntry × ReportedEvent)
    (pairs : List (TracedEntry × ReportedEvent)) :
    r.addMatched (p :: pairs) = (r.add (.matched p.1 p.2) []).addMatched pairs := by
  simp [addMatched, add]

theorem entries_addMatched_of_nil {r : Reconciliation} (h : r.entries = [])
    (pairs : List (TracedEntry × ReportedEvent)) :
    (r.addMatched pairs).entries = (({} : Reconciliation).addMatched pairs).entries := by
  rw [addMatched, addMatched, h]

theorem returns_addMatched {pairs : List (TracedEntry × ReportedEvent)}
    (h : ∀ p ∈ pairs, p.2.digestValue = p.1.entry.digest) (r : Reconciliation) :
    Returns ((pairs.map fun p => (some p.1, some p.2)).foldlM (takePair s bounds a) r)
      (r.addMatched pairs) := by
  induction pairs generalizing r with
  | nil =>
      rw [addMatched_nil]
      exact .pure r
  | cons p rest ih =>
      have htake : takePair s bounds a r (some p.1, some p.2) = pure (r.add (.matched p.1 p.2) []) :=
        if_pos (h p (by simp))
      rw [List.map_cons, List.foldlM_cons, htake, pure_bind, addMatched_cons]
      exact ih (fun q hq => h q (by simp [hq])) _

/-- A reported log that is as long as the traced entries, and whose pairs with them cost less than two skipped
items, is reconciled with them pair by pair. -/
theorem run_of_cheap {l : ReportedLog} {traced : List TracedEntry} {r : Reconciliation}
    (htraced : TracedEntry.ofState s 0 a = .ok traced) (hlength : (l.filterEvents 0 a).length = traced.length)
    (hcheap : (List.zipWith Alignment.mismatchCost (l.filterEvents 0 a)
      (traced.map TracedEntry.entry)).sum < 2 * Alignment.skipCost)
    (hpairs : Returns (((traced.zip (l.filterEvents 0 a)).map fun p => (some p.1, some p.2)).foldlM
      (takePair s bounds a) {}) r) : Returns (run s (some l) a bounds) r := by
  have halign : Returns (align traced (l.filterEvents 0 a) bounds.maxSkipped)
      ((traced.zip (l.filterEvents 0 a)).map fun p => (some p.1, some p.2)) := by
    have hsearch := Alignment.search_of_cheap (by rw [hlength, List.length_map])
      (Alignment.comparable_filterEvents l 0 a _) hcheap bounds.maxSkipped
    refine (Returns.attempt hsearch).bind ((Returns.modify _).bind ?_)
    rw [restore_pairs, Alignment.pairs, Alignment.pairFrom_nil hlength]
    exact .pure _
  refine (Returns.attempt htraced).bind (halign.bind (hpairs.bind ?_))
  exact (Returns.modify _).bind (.pure _)

/-- A reported log that agrees with the traced entries is reconciled with them without an issue. -/
theorem run_of_agree {l : ReportedLog} {traced : List TracedEntry}
    (htraced : TracedEntry.ofState s 0 a = .ok traced)
    (h : List.Forall₂ Alignment.Agree (l.filterEvents 0 a) (traced.map TracedEntry.entry)) :
    Returns (run s (some l) a bounds) (({} : Reconciliation).addMatched (traced.zip (l.filterEvents 0 a))) := by
  have hlength : (l.filterEvents 0 a).length = traced.length := by rw [h.length_eq, List.length_map]
  have hagree := (List.forall₂_map_right_iff.mp h).flip
  have hmatch : ∀ p ∈ traced.zip (l.filterEvents 0 a), p.2.digestValue = p.1.entry.digest :=
    fun p hp => ((List.forall₂_iff_zip.mp hagree).2 hp).1
  have hfree := Alignment.sum_mismatchCost_of_forall₂ h
  exact run_of_cheap htraced hlength (hfree ▸ by decide) (returns_addMatched hmatch _)

section Matched
variable {traced : List TracedEntry} {events : List ReportedEvent}

theorem expected_addMatched (h : events.length ≤ traced.length) :
    (({} : Reconciliation).addMatched (traced.zip events)).entries.filterMap Reconciled.expected? =
      events := by
  rw [addMatched, List.nil_append, List.filterMap_map]
  exact (List.filterMap_eq_map (f := Prod.snd) ▸ List.map_snd_zip h)

theorem calculated_addMatched (h : traced.length ≤ events.length) :
    (({} : Reconciliation).addMatched (traced.zip events)).entries.filterMap Reconciled.calculated? =
      traced := by
  rw [addMatched, List.nil_append, List.filterMap_map]
  exact (List.filterMap_eq_map (f := Prod.fst) ▸ List.map_fst_zip h)

theorem map_command_addMatched (h : traced.length ≤ events.length) :
    (({} : Reconciliation).addMatched (traced.zip events)).commandLog.map CommandRecord.command =
      (traced.map TracedEntry.entry).flatMap fun e => [Reconciled.effect e, .logEvent e] := by
  conv_rhs => rw [← List.map_fst_zip h]
  rw [commandLog, addMatched, List.nil_append, List.flatMap_map, List.map_flatMap, List.map_map,
    List.flatMap_map]
  rfl

end Matched

end Reconciliation

/-! ## The replay -/

namespace Tpm
variable {a : Algorithm} {f : HashFunction} {locality : Int}

/-- An announcement turns back into the start which it announces. -/
theorem effect_announcement (hlow : 0 ≤ locality) (hhigh : locality ≤ 255) (a : Algorithm) :
    Reconciled.effect (announcement locality a) = .init locality := by
  have hzero : (announcement locality a).digest.allZero = true :=
    List.all_eq_true.mpr fun x hx => beq_iff_eq.mpr (List.eq_of_mem_replicate hx)
  have hannounces : ¬ ((announcement locality a).pcr ≠ 0 ∨ (announcement locality a).type ≠ .noAction ∨
      (!(announcement locality a).digest.allZero) = true) := by
    rw [hzero]
    simp [announcement]
  have hbyte : ((UInt8.ofNat locality.toNat).toNat : Int) = locality := by
    rw [UInt8.toNat_ofNat']
    omega
  have hdata : Locality.decode ((announcement locality a).data.getD []) =
      .ok (UInt8.ofNat locality.toNat) := Locality.decode_encode _
  rw [Reconciled.effect, if_neg hannounces, hdata]
  exact congrArg Command.init hbyte

theorem effect_of_measurement {e : EventEntry} (h : e.type ≠ .noAction ∨ e.digest.allZero = false) :
    Reconciled.effect e = .extend e.pcr e.algorithm e.digest := by
  have hextends : e.pcr ≠ 0 ∨ e.type ≠ .noAction ∨ (!e.digest.allZero) = true := by
    rw [Bool.not_eq_true']
    exact .inr h
  rw [Reconciled.effect, if_pos hextends]
  rfl

/-- Replayed with their extends, entries of a register lead to the hash chain over their digests. -/
theorem applyAll_effects_of_holds (hf : a.function? = some f) {es : List EventEntry}
    (hextends : ∀ e ∈ es, Reconciled.effect e = .extend 0 a e.digest) {t : Tpm} {zero one : Bytes}
    (h : t.Holds a zero one) :
    ∃ t', applyAll (es.flatMap fun e => [Reconciled.effect e, .logEvent e]) t = .ok () t' ∧
      t'.Holds a (EventLog.extendAll f zero (es.map EventEntry.digest)) one := by
  induction es generalizing t zero with
  | nil => exact ⟨t, rfl, h⟩
  | cons e rest ih =>
      obtain ⟨t', hextend, ht'⟩ := apply_extend_of_holds hf h e.digest
      obtain ⟨t'', hrest, ht''⟩ := ih (fun x hx => hextends x (by simp [hx]))
        (t := { t' with events := t'.events.push e }) ht'
      have hlogged : apply (.logEvent e) t' = .ok () { t' with events := t'.events.push e } := rfl
      refine ⟨t'', ?_, ht''⟩
      rw [List.flatMap_cons, hextends e (by simp)]
      exact (bind_of_ok hextend _).trans ((bind_of_ok hlogged _).trans hrest)

/-- Replayed on a fresh TPM, an announcement and entries behind it lead to the hash chain that begins with
the announced locality. -/
theorem exists_replay_of_announced (hf : a.function? = some f) {start : Bytes}
    (hstart : EventLog.startValue f.digestSize locality = .ok start) {es : List EventEntry}
    (hbank : ∀ e ∈ es, e.pcr = 0 ∧ e.algorithm = a ∧ e.type ≠ .noAction) :
    ∃ t, applyAll ((announcement locality a :: es).flatMap fun e => [Reconciled.effect e, .logEvent e])
        (fresh [a]) = .ok () t ∧
      t.value 0 a = .ok (EventLog.extendAll f start (es.map EventEntry.digest)) := by
  obtain ⟨hlow, hhigh⟩ := bounds_of_startValue hstart
  obtain ⟨t, hinit, ht⟩ := apply_init_fresh hf hstart
  have hlogged : apply (.logEvent (announcement locality a)) t =
      .ok () { t with events := t.events.push (announcement locality a) } := rfl
  have hextends : ∀ e ∈ es, Reconciled.effect e = .extend 0 a e.digest := by
    intro e he
    obtain ⟨hpcr, halgorithm, htype⟩ := hbank e he
    rw [effect_of_measurement (.inl htype), hpcr, halgorithm]
  obtain ⟨t', hrest, ht'⟩ := applyAll_effects_of_holds hf hextends
    (t := { t with events := t.events.push (announcement locality a) }) ht
  refine ⟨t', ?_, value_of_holds ht'⟩
  rw [List.flatMap_cons, effect_announcement hlow hhigh]
  exact (bind_of_ok hinit _).trans ((bind_of_ok hlogged _).trans hrest)

end Tpm
end MeasuredBoot
