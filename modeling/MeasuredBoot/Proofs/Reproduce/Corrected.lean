import MeasuredBoot.Proofs.Reproduce.Changed

/-!
# A changed register is found out

The log of a machine whose register has another value is reconciled with the boot of the first machine. If the
one value is within the search bounds of the other, then all events match, and unless the digests are the same
there is one issue: the change from the first value to one with which the data of the other machine have their
digest. One digest that differs costs less than two skipped items, so the logs are paired in order; and the
search for the register finds a value, since that of the other machine is accepted.
-/
namespace MeasuredBoot

/-! ## The cost of one digest -/

namespace Alignment
variable {e : ReportedEvent} {c : EventEntry} {front back : List ReportedEvent} {before behind : List EventEntry}

theorem mismatchCost_lt_of_type (h : e.type = c.type) : mismatchCost e c < 2 * skipCost := by
  rw [mismatchCost, if_neg (not_not_intro h), Nat.add_zero]
  split
  · exact Nat.sub_lt (by decide) Nat.one_pos
  · decide

/-- If all other pairs agree, the cost is that of the one pair. -/
theorem sum_mismatchCost_of_middle (hfront : List.Forall₂ Agree front before)
    (hback : List.Forall₂ Agree back behind) :
    (List.zipWith mismatchCost (front ++ e :: back) (before ++ c :: behind)).sum = mismatchCost e c := by
  rw [List.zipWith_append hfront.length_eq, List.zipWith_cons_cons, List.sum_append, List.sum_cons,
    sum_mismatchCost_of_forall₂ hfront, sum_mismatchCost_of_forall₂ hback, Nat.zero_add, Nat.add_zero]

end Alignment

/-! ## The search for the register -/

/-- If some value within the bounds gives data their expected digest, then a value within the bounds is found. -/
theorem RegisterSearch.exists_ofDigest_outcome {data expected : Bytes} {a : Algorithm} {bounds : RegisterBounds}
    {v w : Nat} (hv : v < 2 ^ 64) (hfront : data.take 8 = bytes v) (hw : Admissible bounds v w)
    (hdigest : dataDigest data (bytes w) a = .ok expected) :
    ∃ found, (ofDigest data a expected bounds).outcome = .ok (some found) ∧ Admissible bounds v found := by
  obtain ⟨f, hf, hdigest⟩ := Tpm.function_of_hashBytes hdigest
  have hcheck : ∀ b : Bytes, (do return (← dataDigest data b a) == expected) =
      Except.ok (f.digest (b ++ data.drop 8) == expected) := by
    intro b
    rw [dataDigest, Tpm.hashBytes_eq hf]
    rfl
  have hvalue : (bytes v).toNatLE = v := by
    rw [bytes, wrapped_of_lt hv]
    exact Bytes.toNatLE_ofNatLE_of_lt hv
  rw [ofDigest, hfront]
  have hfound := exists_run_outcome hcheck (length_bytes v) (hvalue.symm ▸ hw) (beq_iff_eq.mpr hdigest)
  rwa [hvalue] at hfound

/-! ## One pair with another digest -/

namespace Reconciliation
variable {s : State} {bounds : ReconciliationBounds} {a : Algorithm} {c : TracedEntry} {e : ReportedEvent}
  {data : Bytes} {w : Nat}

theorem returns_compare (h : Searches bounds a c e data (some w)) (r : Reconciliation) :
    Returns (compare s bounds a r c e)
      { r.add (.matched c e) [.registerChanged (data.take 8) (RegisterSearch.bytes w)] with
        register := some w } := by
  obtain ⟨m, hm, hraw⟩ := h.measured
  rw [compare, if_neg h.differs, hm]
  exact (Returns.attempt hraw).bind <| (Returns.modify _).bind <| (Returns.attempt h.outcome).bind (.pure _)

/-- A reported log that agrees with the traced entries but for one digest, which another register value
explains, is reconciled with one issue. -/
theorem run_of_changed {l : ReportedLog} {before behind : List TracedEntry} {front back : List ReportedEvent}
    (htraced : TracedEntry.ofState s 0 a = .ok (before ++ c :: behind))
    (hevents : l.filterEvents 0 a = front ++ e :: back)
    (hfront : List.Forall₂ Alignment.Agree front (before.map TracedEntry.entry))
    (hback : List.Forall₂ Alignment.Agree back (behind.map TracedEntry.entry))
    (htype : e.type = c.entry.type) (hsearch : Searches bounds a c e data (some w)) :
    Returns (run s (some l) a bounds)
      (({ register := some w
          issues := [.registerChanged (data.take 8) (RegisterSearch.bytes w)] } : Reconciliation).addMatched
        ((before ++ c :: behind).zip (l.filterEvents 0 a))) := by
  have hbefore : before.length = front.length := by rw [hfront.length_eq, List.length_map]
  have hbehind : behind.length = back.length := by rw [hback.length_eq, List.length_map]
  have hmatches {xs : List ReportedEvent} {cs : List TracedEntry}
      (hagree : List.Forall₂ Alignment.Agree xs (cs.map TracedEntry.entry)) :
      ∀ p ∈ cs.zip xs, p.2.digestValue = p.1.entry.digest :=
    fun p hp => ((List.forall₂_iff_zip.mp (List.forall₂_map_right_iff.mp hagree).flip).2 hp).1
  refine run_of_cheap htraced ?_ ?_ ?_
  · rw [hevents, List.length_append, List.length_append, List.length_cons, List.length_cons, hbefore, hbehind]
  · rw [hevents, List.map_append, List.map_cons, Alignment.sum_mismatchCost_of_middle hfront hback]
    exact Alignment.mismatchCost_lt_of_type htype
  · rw [hevents, List.zip_append hbefore, List.zip_cons_cons, List.map_append, List.map_cons, List.foldlM_append]
    refine (returns_addMatched (hmatches hfront) _).bind ?_
    rw [List.foldlM_cons]
    refine (returns_compare hsearch _).bind ?_
    convert returns_addMatched (hmatches hback) _ using 1
    simp [addMatched, add]

end Reconciliation

/-! ## Two machines -/

namespace Pcr0
open Reconciliation (Searches)

/-- A value with which data that a log has measured for an algorithm, with a register in front, have the digest
that was extended. -/
def GivesDigest (flows : FlowCatalog) (a : Algorithm) (log : List CommandRecord) (register : Bytes) (w : Nat) :
    Prop :=
  ∃ q ∈ log, isDataMeasurement flows q = .ok true ∧ ∃ data digest, dataOf q = .ok (data, register) ∧
    q.command = .extend 0 a digest ∧ RegisterSearch.dataDigest data (RegisterSearch.bytes w) a = .ok digest

section Changed
variable {v v' : UInt64} {a : Algorithm} {g' : List CommandRecord} {c : TracedEntry} {e : EventEntry}
  {data : Bytes} {bounds : ReconciliationBounds} {x : ReportedEvent}

theorem Changed.exists_searches (h : Changed v v' a g' c e data) (hx : x.digestValue = e.digest)
    (hdiffers : e.digest ≠ c.entry.digest)
    (hchange : RegisterSearch.Admissible bounds.toRegisterBounds v.toNat v'.toNat) :
    ∃ w, Searches bounds a c x data (some w) ∧
      RegisterSearch.Admissible bounds.toRegisterBounds v.toNat w := by
  obtain ⟨w, hw, hadmissible⟩ :=
    RegisterSearch.exists_ofDigest_outcome v.toNat_lt h.front hchange h.digest
  exact ⟨w, ⟨hx ▸ hdiffers, h.measured, hx ▸ hw⟩, hadmissible⟩

theorem Changed.givesDigest (h : Changed v v' a g' c e data) (hx : x.digestValue = e.digest) {w : Nat}
    (hsearch : Searches bounds a c x data (some w)) {flows : FlowCatalog} {log' : List CommandRecord}
    (hsub : g' ⊆ log') (hdata : ∀ q ∈ g', isDataMeasurement flows q = .ok true) :
    GivesDigest flows a log' (RegisterSearch.bytes v'.toNat) w := by
  obtain ⟨q, hq, hextend, hraw⟩ := h.extended
  refine ⟨q, hsub hq, hdata q hq, _, _, hraw, hextend, ?_⟩
  rw [dataDigest_append (RegisterSearch.length_bytes _), hsearch.hashes, hx]

end Changed
end Pcr0

namespace Reconciliation
open Pcr0 (GivesDigest Paired machine RootRun)

/-- A reconciliation without an issue and a register value, or with the one issue that the register has changed
from a value to the one that is returned. This is within the bounds of the search, and with it the data that a
log has measured with another value have the digest that was extended there. -/
def TellsRegister (flows : FlowCatalog) (bounds : ReconciliationBounds) (a : Algorithm)
    (log : List CommandRecord) (v v' : Nat) (r : Reconciliation) : Prop :=
  (r.issues = [] ∧ r.register = none) ∨
    ∃ w : Nat, r.issues = [.registerChanged (RegisterSearch.bytes v) (RegisterSearch.bytes w)] ∧
      r.register = some w ∧ RegisterSearch.Admissible bounds.toRegisterBounds v w ∧
      GivesDigest flows a log (RegisterSearch.bytes v') w

variable {flows : FlowCatalog}

/-- A log in which one event has changed at most is reconciled with the traced entries pair by pair. -/
theorem exists_run_of_paired {v v' : UInt64} {log' : List CommandRecord} {l : ReportedLog}
    {traced : List TracedEntry} {events : List EventEntry} (htraced : TracedEntry.ofState s 0 a = .ok traced)
    (hpaired : Paired flows v v' a log' traced events)
    (hagree : List.Forall₂ Alignment.Agree (l.filterEvents 0 a) events)
    (hchange : RegisterSearch.Admissible bounds.toRegisterBounds v.toNat v'.toNat) :
    ∃ told : Reconciliation, told.entries = [] ∧ TellsRegister flows bounds a log' v.toNat v'.toNat told ∧
      Returns (run s (some l) a bounds) (told.addMatched (traced.zip (l.filterEvents 0 a))) := by
  by_cases hsame : List.Forall₂ Alignment.Agree (l.filterEvents 0 a) (traced.map TracedEntry.entry)
  · exact ⟨{}, rfl, .inl ⟨rfl, rfl⟩, run_of_agree htraced hsame⟩
  · cases hpaired with
    | same _ => exact absurd hagree hsame
    | @changed before behind c e data g' hsub hdata hchanged =>
        obtain ⟨front, rest, hevents, hfront, hrest⟩ := exists_of_forall₂_append hagree.flip
        obtain ⟨x, back, ⟨hdigest, htype⟩, hback, rfl⟩ := List.forall₂_cons_left_iff.mp hrest
        have hdiffers : e.digest ≠ c.entry.digest := by
          intro hequal
          apply hsame
          rw [hevents, List.map_append, List.map_cons]
          exact List.rel_append hfront.flip
            (.cons ⟨hdigest.trans hequal, htype.trans hchanged.type⟩ hback.flip)
        obtain ⟨w, hsearch, hadmissible⟩ := hchanged.exists_searches hdigest hdiffers hchange
        have hreturns := run_of_changed htraced hevents hfront.flip hback.flip (htype.trans hchanged.type) hsearch
        rw [hchanged.front] at hreturns
        exact ⟨_, rfl, .inr ⟨w, rfl, rfl, hadmissible, hchanged.givesDigest hdigest hsearch hsub hdata⟩,
          hreturns⟩

/-- The log of a machine that differs in the value of the policy status register only is reconciled with the
boot of the first machine, if both have booted from the root without an issue and the one value is within the
bounds of the other: for every algorithm of the TPM, all events match. There is an issue only if the register
is the reason that a digest differs, and then it is the change from the first value to the one that is
returned, which lies within the bounds and gives the data of the other machine their digest. -/
theorem reconcile_changed_register {i : BiosImage} {registers : Option AmdRegisters} {pch psp : Bool}
    {algorithms : List Algorithm} {v v' : Nat} {maxSteps : Int} {last : Boot} {t t' : Tpm} {a : Algorithm}
    (hrun : Boot.complete flows (Boot.ofFlow (machine i registers pch psp algorithms v)
      (Shipped.ref "Root") maxSteps) = (none, last))
    (hclean : ∀ r ∈ last.log.toList, r.issues = []) (ht : last.state.tpm = some t)
    (hrun' : RootRun flows (machine i registers pch psp algorithms v') t') (hv : v < 2 ^ 64)
    (ha : a ∈ algorithms) (bounds : ReconciliationBounds)
    (hchange : RegisterSearch.Admissible bounds.toRegisterBounds v v') :
    ∃ r, Returns (run last.state (some (.ofEntries t'.events.toList)) a bounds) r ∧
      (∀ x ∈ r.entries, ∃ c e, x = .matched c e) ∧
      r.entries.filterMap Reconciled.expected? =
        (ReportedLog.ofEntries t'.events.toList).filterEvents 0 a ∧
      (r.entries.filterMap Reconciled.calculated?).map TracedEntry.entry =
        EventLog.entriesOf t.events.toList 0 a ∧
      TellsRegister flows bounds a t'.commands.toList v v' r := by
  obtain ⟨x, rfl⟩ : ∃ x : UInt64, x.toNat = v := ⟨.ofNat v, UInt64.toNat_ofNat_of_lt hv⟩
  obtain ⟨x', rfl⟩ : ∃ x' : UInt64, x'.toNat = v' := ⟨.ofNat v', UInt64.toNat_ofNat_of_lt hchange.1⟩
  obtain ⟨traced, htraced, hentries, hpaired⟩ := Pcr0.paired_of_rootRun hrun hclean ht hrun' ha
  have hagree := (ReportedLog.reports_ofEntries t'.events.toList 0 a).agree
  have hlength := hagree.length_eq.trans hpaired.length_eq
  obtain ⟨told, hnone, htells, hreturns⟩ := exists_run_of_paired htraced hpaired hagree hchange
  refine ⟨_, hreturns, fun y hy => ?_, ?_, ?_, htells⟩
  · rw [entries_addMatched_of_nil hnone] at hy
    obtain ⟨p, -, rfl⟩ := List.mem_map.mp hy
    exact ⟨p.1, p.2, rfl⟩
  · rw [entries_addMatched_of_nil hnone, expected_addMatched hlength.le]
  · rw [entries_addMatched_of_nil hnone, calculated_addMatched hlength.ge, hentries]

/-! ### Two registers -/

theorem reconcile_changed_register_sample :
    ∃ last t t', Boot.complete Pcr0.sampleFlows (Boot.ofFlow (Pcr0.bootMachine 5) (Shipped.ref "Root")
        Boot.usualMaxSteps) = (none, last) ∧ last.state.tpm = some t ∧
      RootRun Pcr0.sampleFlows (Pcr0.bootMachine 3) t' ∧
      ∃ r, Returns (run last.state (some (.ofEntries t'.events.toList)) .sha1 {}) r ∧
        (∀ x ∈ r.entries, ∃ c e, x = .matched c e) ∧
        (r.entries.filterMap Reconciled.calculated?).map TracedEntry.entry =
          EventLog.entriesOf t.events.toList 0 .sha1 ∧
        TellsRegister Pcr0.sampleFlows {} .sha1 t'.commands.toList 5 3 r := by
  obtain ⟨t', hrun'⟩ : ∃ t, RootRun Pcr0.sampleFlows (Pcr0.bootMachine 3) t :=
    Pcr0.exists_rootRun Boot.usualMaxSteps (by decide +kernel)
  have hends : Pcr0.endsClean (Boot.complete Pcr0.sampleFlows
      (Boot.ofFlow (Pcr0.bootMachine 5) (Shipped.ref "Root") Boot.usualMaxSteps)) = true := by
    decide +kernel
  cases hcomplete : Boot.complete Pcr0.sampleFlows
      (Boot.ofFlow (Pcr0.bootMachine 5) (Shipped.ref "Root") Boot.usualMaxSteps) with
  | mk fault last =>
      rw [hcomplete] at hends
      simp only [Pcr0.endsClean, Bool.and_eq_true, List.all_eq_true, List.isEmpty_iff] at hends
      obtain ⟨⟨hnone, hclean⟩, hheld⟩ := hends
      obtain rfl := Option.isNone_iff_eq_none.mp hnone
      obtain ⟨t, ht⟩ := Option.isSome_iff_exists.mp hheld
      obtain ⟨r, hreturns, hmatched, -, hcalculated, htells⟩ :=
        reconcile_changed_register hcomplete hclean ht hrun' (by decide) (a := .sha1) (by decide) {}
          ⟨by decide, Or.inl (by decide)⟩
      exact ⟨last, t, t', rfl, ht, hrun', r, hreturns, hmatched, hcalculated, htells⟩

end Reconciliation
end MeasuredBoot
