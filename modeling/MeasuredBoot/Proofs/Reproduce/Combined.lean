import MeasuredBoot.Proofs.Reproduce.Classified

/-!
# The combined event log

A reconciliation can be turned back into an event log, to which a match contributes its simulated entry. If
every entry is a match, this log has the digests of the reported events just if no match rests on another
register value: the simulated entry of such a match has the digest for the recorded value, which is not the
reported one.
-/
namespace MeasuredBoot

theorem Reconciled.exists_of_match {x : Reconciled} (h : x.verdict = "MATCH") : ∃ c e, x = .matched c e := by
  cases x with
  | matched c e => exact ⟨c, e, rfl⟩
  | _ => simp [verdict] at h

namespace Reconciliation
variable {s : State} {bounds : ReconciliationBounds} {a : Algorithm} {r : Reconciliation} {j j' : Journal}

/-- The simulated entries of matches have the reported digests if each match has one digest. -/
theorem digests_eq_iff_of_matched {xs : List Reconciled} (h : ∀ x ∈ xs, ∃ c e, x = .matched c e) :
    (xs.flatMap Reconciled.entries).map EventEntry.digest =
        (xs.filterMap Reconciled.expected?).map ReportedEvent.digestValue ↔
      ∀ c e, .matched c e ∈ xs → e.digestValue = c.entry.digest := by
  induction xs with
  | nil => simp
  | cons x rest ih =>
      obtain ⟨c, e, rfl⟩ := h x (by simp)
      have hrest := ih fun y hy => h y (by simp [hy])
      have hentries : Reconciled.entries (.matched c e) = [c.entry] := rfl
      have hexpected : Reconciled.expected? (.matched c e) = some e := rfl
      rw [List.flatMap_cons, List.filterMap_cons_some hexpected, hentries, List.map_append, List.map_cons,
        List.map_cons, List.map_nil, List.singleton_append, List.cons.injEq, hrest]
      constructor
      · rintro ⟨hsame, hlater⟩ c' e' hmem
        rcases List.mem_cons.mp hmem with heq | hmem
        · cases heq
          exact hsame.symm
        · exact hlater c' e' hmem
      · intro hall
        exact ⟨(hall c e (by simp)).symm, fun c' e' hmem => hall c' e' (by simp [hmem])⟩

theorem Classified.register_eq_none_iff {calculated : List TracedEntry} {expected : List ReportedEvent}
    (h : Classified bounds a calculated expected r) :
    r.register = none ↔ ∀ c e, .matched c e ∈ r.entries → e.digestValue = c.entry.digest := by
  refine ⟨h.unchanged, fun hsame => Option.eq_none_iff_forall_ne_some.mpr fun v hv => ?_⟩
  obtain ⟨c, e, data, hmem, hsearch⟩ := h.register v hv
  exact hsearch.differs (hsame c e hmem)

/-- If all entries of a reconciliation match, then its event log has the digests of the reported events of
register zero, in order, exactly if there is no register value. -/
theorem eventLog_digests_iff {log : Option ReportedLog} (h : run s log a bounds j = .ok r j')
    (hmatched : ∀ x ∈ r.entries, x.verdict = "MATCH") :
    ∃ l, log = some l ∧
      (r.eventLog.map EventEntry.digest = (l.filterEvents 0 a).map ReportedEvent.digestValue ↔
        r.register = none) := by
  obtain ⟨l, traced, hlog, -, hall⟩ := exists_classified_of_run h
  refine ⟨l, hlog, ?_⟩
  rw [eventLog, ← hall.expected, hall.register_eq_none_iff]
  exact digests_eq_iff_of_matched fun x hx => Reconciled.exists_of_match (hmatched x hx)

def recordedEvent : ReportedEvent :=
  ⟨0, .postCode, [], some ⟨.sha1, Hash.Sha1.digest (RegisterSearch.bytes 5)⟩⟩

theorem eventLog_digests_recorded :
    ∃ r j, run statusBoot (some [recordedEvent]) .sha1 {} #[] = .ok r j ∧
      (∀ x ∈ r.entries, x.verdict = "MATCH") ∧
      r.eventLog.map EventEntry.digest =
        (ReportedLog.filterEvents [recordedEvent] 0 .sha1).map ReportedEvent.digestValue := by
  obtain ⟨r, j, hrun, hends⟩ := exists_of_answers
    (p := fun r => r.entries.all (·.verdict = "MATCH") && r.register = none)
    (x := run statusBoot (some [recordedEvent]) .sha1 {} #[]) (by decide +kernel)
  rw [Bool.and_eq_true, List.all_eq_true, decide_eq_true_iff] at hends
  have hmatched : ∀ x ∈ r.entries, x.verdict = "MATCH" := fun x hx => of_decide_eq_true (hends.1 x hx)
  obtain ⟨l, hlog, hiff⟩ := eventLog_digests_iff hrun hmatched
  cases hlog
  exact ⟨r, j, hrun, hmatched, hiff.mpr hends.2⟩

/-- If the register has changed, then every entry matches, but the digest in the event log is the one for the
recorded value and not the reported one. -/
theorem eventLog_digests_lowered :
    ∃ r j, run statusBoot (some [loweredEvent]) .sha1 {} #[] = .ok r j ∧
      (∀ x ∈ r.entries, x.verdict = "MATCH") ∧
      r.eventLog.map EventEntry.digest ≠
        (ReportedLog.filterEvents [loweredEvent] 0 .sha1).map ReportedEvent.digestValue := by
  obtain ⟨r, j, hrun, hends⟩ := exists_of_answers
    (p := fun r => r.entries.all (·.verdict = "MATCH") && r.eventLog.map EventEntry.digest ≠
      (ReportedLog.filterEvents [loweredEvent] 0 .sha1).map ReportedEvent.digestValue)
    (x := run statusBoot (some [loweredEvent]) .sha1 {} #[]) (by decide +kernel)
  rw [Bool.and_eq_true, List.all_eq_true, decide_eq_true_iff] at hends
  exact ⟨r, j, hrun, fun x hx => of_decide_eq_true (hends.1 x hx), hends.2⟩

end Reconciliation
end MeasuredBoot
