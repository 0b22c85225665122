import MeasuredBoot.Proofs.Reproduce.Matching
import MeasuredBoot.Proofs.Reproduce.Replays

/-!
# Replaying events that are all unexpected

If every reported event is unexpected, then the commands of the reconciliation are made of the events alone,
and there are two ways to replay the log: these commands on a fresh TPM, and the replay of the reported log
itself. They treat an event for no action differently. The log is replayed without it, wherever it stands;
as a command it starts the TPM if its digest is zero, and extends the register otherwise. The first event is
the start which both need. Any later one is refused as a second start or is extended in one replay only.
-/
namespace MeasuredBoot

def ReportedEvent.starts (e : ReportedEvent) : Bool := e.type = .noAction && e.digestValue.allZero

/-- The digests with which a replay of the log extends. -/
def ReportedLog.measured (l : ReportedLog) : List Bytes :=
  (l.filter fun e => e.type ≠ .noAction).map ReportedEvent.digestValue

theorem ReportedLog.measured_of_quiet {l : ReportedLog} (h : ∀ e ∈ l, e.type ≠ .noAction) :
    l.measured = l.map ReportedEvent.digestValue := by
  rw [measured, List.filter_eq_self.mpr fun e he => decide_eq_true (h e he)]

/-- The value of register zero after a start at a locality and extends with digests. -/
def EventLog.chainFrom (f : HashFunction) (locality : UInt8) (digests : List Bytes) : Bytes :=
  extendAll f (Bytes.zeros (f.digestSize - 1) ++ [locality]) digests

theorem EventLog.startValue_byte (size : Nat) (x : UInt8) :
    startValue size x.toNat = .ok (Bytes.zeros (size - 1) ++ [x]) := by
  have hbyte := x.toNat_lt
  rw [startValue_eq size (by omega) (by omega), Int.toNat_natCast, UInt8.ofNat_toNat]

namespace Reconciliation
variable {a : Algorithm} {f : HashFunction} {l : ReportedLog}

/-- The reconciliation with a log of which nothing was simulated. -/
def ofUnexpected (l : ReportedLog) : Reconciliation := { entries := l.map .unexpected }

/-- The commands of a reconciliation can be applied to a fresh TPM, and register zero is then what the
replay of the log says. -/
def ReplaysAs (r : Reconciliation) (l : ReportedLog) (a : Algorithm) : Prop :=
  ∃ t v, Tpm.applyAll (r.commandLog.map CommandRecord.command) (Tpm.fresh [a]) = .ok () t ∧
    t.value 0 a = .ok v ∧ l.replay 0 a = .ok v

def reportedEntry (a : Algorithm) (e : ReportedEvent) : EventEntry :=
  ⟨0, a, e.digestValue, e.type, some e.data⟩

theorem map_command_ofUnexpected (h : ∀ e ∈ l, e.isOf 0 a = true) :
    (ofUnexpected l).commandLog.map CommandRecord.command =
      (l.map (reportedEntry a)).flatMap fun e => [Reconciled.effect e, .logEvent e] := by
  rw [commandLog, ofUnexpected, List.flatMap_map, List.flatMap_map, List.map_flatMap]
  refine List.flatMap_congr fun e he => ?_
  have hcommands : Reconciled.commands (.unexpected e) =
      Reconciled.commandsOf none none (reportedEntry a e) := by
    simp [Reconciled.commands, Reconciled.calculated?, Reconciled.surplus?,
      ReportedLog.entry?_of_isOf (h e he), reportedEntry]
  rw [hcommands]
  rfl

/-! ## What becomes of an event -/

theorem effect_of_starts {e : ReportedEvent} (h : e.starts = true) :
    ∃ locality, Reconciled.effect (reportedEntry a e) = .init locality := by
  obtain ⟨htype, hzero⟩ : e.type = .noAction ∧ e.digestValue.allZero = true := by
    simpa [ReportedEvent.starts] using h
  have hstart : ¬ ((reportedEntry a e).pcr ≠ 0 ∨ (reportedEntry a e).type ≠ .noAction ∨
      (!(reportedEntry a e).digest.allZero) = true) := by
    simp [reportedEntry, htype, hzero]
  rw [Reconciled.effect, if_neg hstart]
  split
  · exact ⟨_, rfl⟩
  · exact ⟨0, rfl⟩

theorem effect_of_not_starts {e : ReportedEvent} (h : e.starts = false) :
    Reconciled.effect (reportedEntry a e) = .extend 0 a e.digestValue := by
  refine Tpm.effect_of_measurement ?_
  rw [ReportedEvent.starts, Bool.and_eq_false_iff] at h
  exact h.imp_left of_decide_eq_false

theorem effect_of_report {e : ReportedEvent} (h : e.starts = true) {x : UInt8}
    (hdata : Locality.decode e.data = .ok x) :
    Reconciled.effect (reportedEntry a e) = .init x.toNat := by
  obtain ⟨htype, hzero⟩ : e.type = .noAction ∧ e.digestValue.allZero = true := by
    simpa [ReportedEvent.starts] using h
  simp [Reconciled.effect, reportedEntry, htype, hzero, hdata]

/-! ## The commands on a TPM that is started -/

section Started
variable {t : Tpm} {zero one : Bytes}

theorem applyAll_of_no_start (hf : a.function? = some f) (h : t.Holds a zero one)
    (hlater : ∀ e ∈ l, e.starts = false) :
    ∃ t', Tpm.applyAll ((l.map (reportedEntry a)).flatMap fun e => [Reconciled.effect e, .logEvent e]) t =
        .ok () t' ∧
      t'.value 0 a = .ok (EventLog.extendAll f zero (l.map ReportedEvent.digestValue)) := by
  have hextends : ∀ e ∈ l.map (reportedEntry a), Reconciled.effect e = .extend 0 a e.digest := by
    intro x hx
    obtain ⟨e, he, rfl⟩ := List.mem_map.mp hx
    exact effect_of_not_starts (hlater e he)
  obtain ⟨t', hrun, ht'⟩ := Tpm.applyAll_effects_of_holds hf hextends h
  rw [List.map_map] at ht'
  exact ⟨t', hrun, Tpm.value_of_holds ht'⟩

theorem apply_init_of_holds (h : t.Holds a zero one) (locality : Int) :
    Tpm.apply (.init locality) t = .error (.tpm .alreadyInitialized) t := by
  have hfull : t.isInitialized = true := by
    rw [Tpm.isInitialized, h.2]
    rfl
  rw [Tpm.apply, Tpm.initRegisters, get_bind_run, hfull]
  rfl

/-- The first further start is refused. -/
theorem applyAll_of_start (hf : a.function? = some f) (h : t.Holds a zero one)
    (hlater : ∃ e ∈ l, e.starts = true) :
    ∃ u, Tpm.applyAll ((l.map (reportedEntry a)).flatMap fun e => [Reconciled.effect e, .logEvent e]) t =
      .error (.tpm .alreadyInitialized) u := by
  induction l generalizing t zero with
  | nil =>
      obtain ⟨e, he, -⟩ := hlater
      cases he
  | cons e rest ih =>
      rw [List.map_cons, List.flatMap_cons]
      cases hstarts : e.starts with
      | true =>
          obtain ⟨locality, heffect⟩ := effect_of_starts (a := a) hstarts
          rw [heffect]
          exact ⟨t, bind_of_error (apply_init_of_holds h locality) _⟩
      | false =>
          have hrest : ∃ x ∈ rest, x.starts = true := by
            obtain ⟨x, hx, hxstarts⟩ := hlater
            rcases List.mem_cons.mp hx with rfl | hx
            · rw [hstarts] at hxstarts
              cases hxstarts
            · exact ⟨x, hx, hxstarts⟩
          obtain ⟨t', hextend, ht'⟩ := Tpm.apply_extend_of_holds hf h e.digestValue
          obtain ⟨u, hu⟩ := ih (t := { t' with events := t'.events.push (reportedEntry a e) }) ht' hrest
          have hlogged : Tpm.apply (.logEvent (reportedEntry a e)) t' =
            .ok () { t' with events := t'.events.push (reportedEntry a e) } := rfl
          rw [effect_of_not_starts hstarts]
          exact ⟨u, (bind_of_ok hextend _).trans ((bind_of_ok hlogged _).trans hu)⟩

end Started

/-! ## Both replays -/

section Both
variable {first : ReportedEvent} {rest : ReportedLog} {x : UInt8}

theorem startupLocality_of_report (hpcr : first.pcr = 0) (htype : first.type = .noAction)
    (hdata : Locality.decode first.data = .ok x) :
    ReportedLog.startupLocality (first :: rest) = .ok (x.toNat : Int) := by
  have hreport : Locality.isReport first.data = true := by
    unfold Locality.decode at hdata
    split at hdata
    · assumption
    · cases hdata
  have hfound : List.find? ReportedLog.reportsLocality (first :: rest) = some first :=
    List.find?_cons_of_pos (by simp [ReportedLog.reportsLocality, hpcr, htype, hreport])
  rw [ReportedLog.startupLocality, hfound]
  simp only [hdata, ok_bind]
  rfl

/-- The replay of the reported log: it starts as its first event says, and goes on with the events behind it
that stand for an action. -/
theorem replay_of_report (hf : a.function? = some f) (hbank : ∀ e ∈ first :: rest, e.isOf 0 a = true)
    (htype : first.type = .noAction) (hdata : Locality.decode first.data = .ok x) :
    ReportedLog.replay (first :: rest) 0 a =
      .ok (EventLog.chainFrom f x rest.measured) := by
  have hpcr : first.pcr = 0 := by
    have hfirst := hbank first (by simp)
    simp only [ReportedEvent.isOf, Bool.and_eq_true, decide_eq_true_eq] at hfirst
    exact hfirst.1
  have hevents : ReportedLog.filterEvents (first :: rest) 0 a = first :: rest :=
    List.filter_eq_self.mpr hbank
  have hzero : ¬ ((0 : Int) ≠ 0) := fun hne => hne rfl
  rw [ReportedLog.replay, if_neg hzero, hf, startupLocality_of_report hpcr htype hdata]
  simp only [ok_bind, EventLog.startValue_byte, hevents]
  rw [List.filter_cons_of_neg (by simp [htype])]
  rfl

/-- After the report of the locality, the commands made of a reported log work on a TPM that is started. -/
theorem exists_started (hf : a.function? = some f) (hbank : ∀ e ∈ first :: rest, e.isOf 0 a = true)
    (hstarts : first.starts = true) (hdata : Locality.decode first.data = .ok x) :
    ∃ t one, Tpm.Holds t a (Bytes.zeros (f.digestSize - 1) ++ [x]) one ∧
      Tpm.applyAll ((ofUnexpected (first :: rest)).commandLog.map CommandRecord.command) (Tpm.fresh [a]) =
        Tpm.applyAll ((rest.map (reportedEntry a)).flatMap fun e => [Reconciled.effect e, .logEvent e]) t := by
  obtain ⟨t, hinit, ht⟩ := Tpm.apply_init_fresh hf (EventLog.startValue_byte f.digestSize x)
  have hlogged : Tpm.apply (.logEvent (reportedEntry a first)) t =
    .ok () { t with events := t.events.push (reportedEntry a first) } := rfl
  refine ⟨{ t with events := t.events.push (reportedEntry a first) }, _, ht, ?_⟩
  rw [map_command_ofUnexpected hbank, List.map_cons, List.flatMap_cons, effect_of_report hstarts hdata]
  exact (bind_of_ok hinit _).trans (bind_of_ok hlogged _)

/-- Whether the commands made of a reported log lead to the value of its replay, if the log begins with the
report of the locality: they do exactly if no later event turns into a start and the later events for no
action, which are extended, do not change the value of the hash chain. In particular they do if there is no
later event for no action. -/
theorem replaysAs_iff_of_unexpected (hf : a.function? = some f)
    (hbank : ∀ e ∈ first :: rest, e.isOf 0 a = true) (hstarts : first.starts = true)
    (hdata : Locality.decode first.data = .ok x) :
    ((ofUnexpected (first :: rest)).ReplaysAs (first :: rest) a ↔
        (∀ e ∈ rest, e.starts = false) ∧
          EventLog.chainFrom f x (rest.map ReportedEvent.digestValue) = EventLog.chainFrom f x rest.measured) ∧
      ((∀ e ∈ rest, e.type ≠ .noAction) → (ofUnexpected (first :: rest)).ReplaysAs (first :: rest) a) := by
  have htype : first.type = .noAction := by
    rw [ReportedEvent.starts, Bool.and_eq_true] at hstarts
    exact of_decide_eq_true hstarts.1
  have hreplay := replay_of_report hf hbank htype hdata
  obtain ⟨t, one, ht, hrun⟩ := exists_started hf hbank hstarts hdata
  have hiff : (ofUnexpected (first :: rest)).ReplaysAs (first :: rest) a ↔
      (∀ e ∈ rest, e.starts = false) ∧
        EventLog.chainFrom f x (rest.map ReportedEvent.digestValue) = EventLog.chainFrom f x rest.measured := by
    unfold ReplaysAs
    rw [hrun, hreplay]
    by_cases hlater : ∀ e ∈ rest, e.starts = false
    · obtain ⟨u, hu, hvalue⟩ := applyAll_of_no_start hf ht hlater
      rw [hu]
      constructor
      · rintro ⟨u', v, hsame, hv, hv'⟩
        cases hsame
        exact ⟨hlater, Except.ok.inj (hvalue.symm.trans (hv.trans hv'.symm))⟩
      · rintro ⟨-, hsame⟩
        exact ⟨u, _, rfl, hvalue, congrArg Except.ok hsame.symm⟩
    · obtain ⟨u, hu⟩ := applyAll_of_start hf ht (by simpa using hlater)
      rw [hu]
      constructor
      · rintro ⟨u', v, hsame, -, -⟩
        cases hsame
      · rintro ⟨hnone, -⟩
        exact absurd hnone hlater
  refine ⟨hiff, fun hquiet => hiff.mpr ⟨fun e he => ?_, ?_⟩⟩
  · rw [ReportedEvent.starts, decide_eq_false (hquiet e he), Bool.false_and]
  · rw [ReportedLog.measured_of_quiet hquiet]

end Both

def localityReport : ReportedEvent :=
  ⟨0, .noAction, Locality.encode 3, some ⟨.sha1, Bytes.zeros 20⟩⟩

def measuredEvents : ReportedLog :=
  [⟨0, .crtmVersion, [1, 0], some ⟨.sha1, List.replicate 20 7⟩⟩,
    ⟨0, .separator, [0, 0, 0, 0], some ⟨.sha1, List.replicate 20 9⟩⟩]

theorem replaysAs_of_unexpected_measured :
    (∀ e ∈ localityReport :: measuredEvents, e.isOf 0 .sha1 = true) ∧
      (ofUnexpected (localityReport :: measuredEvents)).ReplaysAs (localityReport :: measuredEvents) .sha1 := by
  have hbank : ∀ e ∈ localityReport :: measuredEvents, e.isOf 0 .sha1 = true := by decide
  exact ⟨hbank, (replaysAs_iff_of_unexpected (x := 3) rfl hbank (by decide) rfl).2 (by decide)⟩

/-- An event about the integrity of the firmware: for no action, with a digest of zeros. -/
def integrityEvent : ReportedEvent :=
  ⟨0, .noAction, Bytes.ofLatin "SP800-155 Event" ++ [0], some ⟨.sha1, Bytes.zeros 20⟩⟩

/-- A second event for no action is turned into a second start, which the TPM refuses; the log itself can be
replayed. -/
theorem integrityEvent_not_replayed :
    (∀ e ∈ [localityReport, integrityEvent], e.isOf 0 .sha1 = true ∧ e.digestValue = Bytes.zeros 20) ∧
      (∃ u, Tpm.applyAll ((ofUnexpected [localityReport, integrityEvent]).commandLog.map
        CommandRecord.command) (Tpm.fresh [.sha1]) = .error (.tpm .alreadyInitialized) u) ∧
      ReportedLog.replay [localityReport, integrityEvent] 0 .sha1 = .ok (Bytes.zeros 19 ++ [3]) ∧
      ¬ (ofUnexpected [localityReport, integrityEvent]).ReplaysAs [localityReport, integrityEvent] .sha1 := by
  obtain ⟨u, hu⟩ : ∃ u, Tpm.applyAll ((ofUnexpected [localityReport, integrityEvent]).commandLog.map
      CommandRecord.command) (Tpm.fresh [.sha1]) = .error (.tpm .alreadyInitialized) u := ⟨_, rfl⟩
  refine ⟨by decide, ⟨u, hu⟩, rfl, ?_⟩
  rintro ⟨t, v, hok, -, -⟩
  cases hu.symm.trans hok

end Reconciliation
end MeasuredBoot
