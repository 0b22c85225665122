import MeasuredBoot.Proofs.Boot.Numbered
import MeasuredBoot.Proofs.Boot.Regular
import MeasuredBoot.Proofs.Reproduce.Matching
import MeasuredBoot.Proofs.Reproduce.Tracing

/-!
# From a run to its log and back

A run from the root without issues, which has announced the start of the TPM, is recorded in an event log. If
firmware reports this log as it is, then the reconciliation pairs each entry with its own event, and the
replay of the pairs on a fresh TPM leads to the value of register zero. Every step was executed once, so what
one step has written is one group of the command log; no action has measured twice; and but for the
announcement, which stands first, the groups log exactly what they measure.
-/
namespace MeasuredBoot

/-- A reported log that has, for a register and an algorithm, the digests, types and data of the entries of
another one, in order. An entry without data is reported with empty data. -/
def ReportedLog.Reports (l : ReportedLog) (pcr : Int) (a : Algorithm) (entries : List EventEntry) : Prop :=
  (l.filterEvents pcr a).map (fun e => (e.digestValue, e.type, e.data)) =
    (EventLog.entriesOf entries pcr a).map fun e => (e.digest, e.type, e.data.getD [])

def ReportedLog.ofEntries (entries : List EventEntry) : ReportedLog :=
  entries.map fun e => ⟨e.pcr, e.type, e.data.getD [], some ⟨e.algorithm, e.digest⟩⟩

theorem ReportedLog.reports_ofEntries (entries : List EventEntry) (pcr : Int) (a : Algorithm) :
    (ofEntries entries).Reports pcr a entries := by
  have hbank : (ReportedEvent.isOf pcr a ∘ fun e : EventEntry =>
      (⟨e.pcr, e.type, e.data.getD [], some ⟨e.algorithm, e.digest⟩⟩ : ReportedEvent)) =
        fun e => e.pcr = pcr && e.algorithm = a := by
    funext e
    simp [ReportedEvent.isOf]
  rw [Reports, filterEvents, ofEntries, List.filter_map, hbank, List.map_map, EventLog.entriesOf]
  rfl

theorem ReportedLog.Reports.agree {l : ReportedLog} {pcr : Int} {a : Algorithm} {entries : List EventEntry}
    (h : l.Reports pcr a entries) :
    List.Forall₂ Alignment.Agree (l.filterEvents pcr a) (EventLog.entriesOf entries pcr a) := by
  unfold Reports at h
  generalize l.filterEvents pcr a = events at h
  generalize EventLog.entriesOf entries pcr a = es at h
  induction events generalizing es with
  | nil =>
      obtain rfl := List.map_eq_nil_iff.mp h.symm
      exact .nil
  | cons e rest ih =>
      obtain ⟨c, more, rfl, hc, hmore⟩ := List.map_eq_cons_iff.mp h.symm
      obtain ⟨hdigest, hrest⟩ := Prod.mk.injEq .. ▸ hc
      exact .cons ⟨hdigest.symm, (Prod.mk.inj hrest).1.symm⟩ (ih more hmore.symm)

namespace Boot
variable {flows : FlowCatalog} {b last : Boot} {es : List Execution} {o : Option Fault} {next : Nat}

/-! ## The groups of a run -/

theorem sameStep_of_mem_records {e : Execution} {r q : CommandRecord} (hr : r ∈ e.records)
    (hq : q ∈ e.records) : Coordinates.sameStep r.place q.place = true := by
  obtain ⟨j, -, -, -, hplace, -⟩ := exists_cause_of_mem_records hr
  obtain ⟨k, -, -, -, hplace', -⟩ := exists_cause_of_mem_records hq
  rw [hplace, hplace']
  simp [Coordinates.sameStep]

theorem not_sameStep_of_mem_records {e e' : Execution}
    (h : Shipped.position e.flow e.index < Shipped.position e'.flow e'.index) {r q : CommandRecord}
    (hr : r ∈ e.records) (hq : q ∈ e'.records) : Coordinates.sameStep r.place q.place = false := by
  obtain ⟨j, -, -, -, hplace, -⟩ := exists_cause_of_mem_records hr
  obtain ⟨k, -, -, -, hplace', -⟩ := exists_cause_of_mem_records hq
  rw [hplace, hplace', Coordinates.sameStep, Bool.eq_false_iff]
  intro hsame
  obtain ⟨hflow, hindex⟩ := Bool.and_eq_true_iff.mp hsame
  have hflow := Option.some.inj (of_decide_eq_true hflow)
  have hindex := Int.ofNat.inj (of_decide_eq_true hindex)
  rw [hflow, hindex] at h
  exact absurd h (Nat.lt_irrefl _)

/-- What two executed steps have written stands at different steps. -/
theorem apart_of_executes (h : Executes flows b es o last) (hb : Onward flows b.state next) :
    (es.map Execution.records).Pairwise fun g g' =>
      ∀ r ∈ g, ∀ q ∈ g', Coordinates.sameStep r.place q.place = false := by
  have hrising := List.pairwise_map.mp (rising_of_executes h hb).2
  exact List.pairwise_map.mpr (hrising.imp fun hlt r hr q hq => not_sameStep_of_mem_records hlt hr hq)

theorem exists_causes {algorithms : List Algorithm} (h : Executes flows b es o last)
    (hb : -1 ≤ b.state.step) (hfresh : b.state.tpm = some (Tpm.fresh algorithms))
    (hunmeasured : ∀ m ∈ b.state.measured.toList, m.chain ≠ some .tpm)
    (hsteps : ∀ e ∈ es, e.step.isMirrored = true) :
    ∃ known, TracedEntry.causes last.state = .ok known := by
  have haccounted := accounted_of_executes h hb (accounted_start hfresh)
  rw [List.nil_append] at haccounted
  have hbacked : ∀ x ∈ es.flatMap Execution.applications, ∃ t, x.Backed algorithms t := by
    intro x hx
    obtain ⟨earlier, later, hsplit⟩ := List.append_of_mem hx
    exact ⟨_, haccounted.backed earlier x later hsplit⟩
  obtain ⟨as, hsub, hactions, hchain⟩ := exists_actions_of_backed hbacked
  have hcauses : (es.flatMap Execution.applications).map Application.cause =
      es.flatMap Execution.applied := by
    rw [List.map_flatMap]
    exact List.flatMap_congr fun e _ => map_cause_applications 0 e.applied e.start.state
  have hmeasured : (last.state.measured.toList.filter fun m => m.chain = some .tpm) =
      (es.flatMap Execution.applications).flatMap Application.added := by
    rw [haccounted.measured, List.filter_append, List.filter_eq_nil_iff.mpr, List.nil_append,
      List.filter_eq_self.mpr]
    · exact fun m hm => decide_eq_true (hchain m hm)
    · exact fun m hm => by simpa using hunmeasured m hm
  rw [TracedEntry.causes, hmeasured]
  apply TracedEntry.exists_foldlM_addCause hactions
  rw [hcauses] at hsub
  exact (nodup_applied h hsteps).sublist (hsub.map IssuedAction.identity)

/-- The log of a run of regular steps is traced, one step after another, and keeps its entries. -/
theorem exists_traced {algorithms : List Algorithm} {t : Tpm} {a : Algorithm} (h : Executes flows b es o last)
    (hb : Onward flows b.state next) (hfresh : b.state.tpm = some (Tpm.fresh algorithms))
    (hunmeasured : ∀ m ∈ b.state.measured.toList, m.chain ≠ some .tpm)
    (haccepts : Tpm.Accepts (Tpm.fresh algorithms) (es.map Execution.records).flatten t)
    (ht : last.state.tpm = some t) (hregular : ∀ e ∈ es, e.Regular algorithms) (ha : a ∈ algorithms) :
    ∃ known traced, TracedEntry.causes last.state = .ok known ∧
      (es.map Execution.records).mapM (TracedEntry.ofGroup known a) = .ok traced ∧
      TracedEntry.ofState last.state 0 a = .ok traced.flatten ∧
      traced.flatten.map TracedEntry.entry = EventLog.entriesOf t.events.toList 0 a := by
  obtain ⟨known, hknown⟩ := exists_causes h hb.bound hfresh hunmeasured fun e he => (hregular e he).mirrored
  obtain ⟨traced, htraced⟩ : ∃ traced,
      (es.map Execution.records).mapM (TracedEntry.ofGroup known a) = .ok traced := by
    apply exists_mapM_of_ok
    intro g hg
    obtain ⟨e, he, rfl⟩ := List.mem_map.mp hg
    exact TracedEntry.exists_ofGroup known ((hregular e he).commands.paired a)
  have hevents := (Tpm.told_accepts haccepts (List.ne_nil_of_mem ha) (Tpm.told_fresh algorithms)).events
  have hsteps : ∀ g ∈ es.map Execution.records, ∀ x ∈ g, ∀ y ∈ g,
      Coordinates.sameStep x.place y.place = true := by
    intro g hg
    obtain ⟨e, -, rfl⟩ := List.mem_map.mp hg
    exact fun r hr q hq => sameStep_of_mem_records hr hq
  have hstate := TracedEntry.ofState_eq ht hknown hevents (Tpm.commands_of_accepts haccepts).1 hsteps
    (apart_of_executes h hb) a
  rw [htraced] at hstate
  exact ⟨known, traced, hknown, htraced, hstate, TracedEntry.map_entry_of_ofState hstate ht hevents⟩

end Boot

namespace Reconciliation
open Boot (Executes Execution)

/-- For every algorithm of the TPM, the log of a run without issues that has announced the start is reconciled
with any report of it so that all events match, without an issue and with the register as it was; and replayed
on a fresh TPM with this algorithm, it leads to the value of register zero. -/
theorem root_run_round_trips {flows : FlowCatalog} {s : State} {algorithms : List Algorithm} {maxSteps : Int}
    {last : Boot} {locality : Int} {t : Tpm} {a : Algorithm} {l : ReportedLog}
    (hfresh : s.tpm = some (Tpm.fresh algorithms))
    (hunmeasured : ∀ m ∈ s.measured.toList, m.chain ≠ some .tpm) (hnodup : algorithms.Nodup)
    (hrun : Boot.complete flows (Boot.ofFlow s (Shipped.ref "Root") maxSteps) = (none, last))
    (hclean : ∀ r ∈ last.log.toList, r.issues = [])
    (hstarted : ∃ r ∈ last.log.toList, r.step = .initTpm locality true)
    (ht : last.state.tpm = some t) (ha : a ∈ algorithms) (hreports : l.Reports 0 a t.events.toList)
    (bounds : ReconciliationBounds) :
    ∃ r, Returns (run last.state (some l) a bounds) r ∧
      (∀ x ∈ r.entries, ∃ c e, x = .matched c e) ∧
      r.entries.filterMap Reconciled.expected? = l.filterEvents 0 a ∧
      (r.entries.filterMap Reconciled.calculated?).map TracedEntry.entry =
        EventLog.entriesOf t.events.toList 0 a ∧
      r.issues = [] ∧ r.register = none ∧
      ∃ u v, Tpm.applyAll (r.commandLog.map CommandRecord.command) (Tpm.fresh [a]) = .ok () u ∧
        u.value 0 a = .ok v ∧ t.value 0 a = .ok v := by
  obtain ⟨es, last', hexecutes, hstate, hlog⟩ :=
    Boot.exists_executes flows (Boot.ofFlow s (Shipped.ref "Root") maxSteps)
  rw [hrun] at hexecutes hstate hlog
  rw [hlog] at hclean hstarted
  have hstart := Boot.onward_root flows s maxSteps
  obtain ⟨u, haccepts, hu, hregular⟩ :=
    Boot.regular_of_executes hexecutes hstart (Boot.clean_of_executes hexecutes hclean) hfresh
  obtain rfl : u = t := Option.some.inj (hu.symm.trans (hstate ▸ ht))
  -- The step that has announced the start is one of the executed ones.
  obtain ⟨e, he, hannounced⟩ : ∃ e ∈ es, e.step = .initTpm locality true := by
    obtain ⟨r, hr, hstep⟩ := hstarted
    have hmem := List.mem_map_of_mem (f := StepRecord.step) hr
    rw [Boot.steps_of_executes hexecutes hstart.bound] at hmem
    obtain ⟨e, he, heq⟩ := List.mem_map.mp hmem
    exact ⟨e, he, heq.trans hstep⟩
  obtain ⟨f, start, later, hf, hvalue, hentries, hbank, hv⟩ :=
    Tpm.announced_of_accepts haccepts
      (fun g hg => by
        obtain ⟨x, hx, rfl⟩ := List.mem_map.mp hg
        exact (hregular x hx).commands)
      ⟨e.records, List.mem_map_of_mem he, (hregular e he).start locality hannounced⟩ hnodup ha
  obtain ⟨-, traced, -, -, htraced, hcalculated⟩ :=
    Boot.exists_traced hexecutes hstart hfresh hunmeasured haccepts hu hregular ha
  have hagree := hreports.agree
  rw [← hcalculated] at hagree
  have hlength : traced.flatten.length = (l.filterEvents 0 a).length := by
    rw [hagree.length_eq, List.length_map]
  obtain ⟨w, hw, hreplayed⟩ := Tpm.exists_replay_of_announced hf hvalue hbank
  rw [← hstate] at htraced
  refine ⟨_, run_of_agree htraced hagree, fun x hx => ?_, expected_addMatched hlength.ge, ?_, rfl, rfl,
    w, _, ?_, hreplayed, hv⟩
  · obtain ⟨p, -, rfl⟩ := List.mem_map.mp hx
    exact ⟨p.1, p.2, rfl⟩
  · rw [calculated_addMatched hlength.le, hcalculated]
  · rw [map_command_addMatched hlength.le, hcalculated, hentries]
    exact hw

/-- The first 288 bytes of an image, whose declared region begins with the measured memory: the magic value of
the firmware's version stands first, and the measured structures stand behind it. -/
def announcingImage : BiosImage where
  content := ⟨#[0xBF, 0x17, 0xB8, 0x3A] ++ Array.replicate 284 0⟩
  regions := some [("BIOS", ⟨0, AddressMap.fourGiB - (Shipped.v0Base + 0xF44)⟩)]
  nodes := [
    .mk (.section Node.teSection) 0 4 (some VendorVersion.v0.module) [],
    .mk .volume 4 1 (some Source.dxeVolume) []]
  intel := none
  amd := some {
    pspDirectories := [⟨5, 1⟩]
    biosDirectories := [⟨⟨6, 2⟩, 1⟩]
    embeddedFirmware := some ⟨8, 1⟩
    entries := [⟨DirectoryEntry.rtmVolume, 1, 9, 1⟩, ⟨DirectoryEntry.microcodePatch, 2, 10, 1⟩]
    pspVersion := some ⟨11, 1⟩
    pspDirectoryValid := true
    biosDirectoryValid := true }

def announcingMachine : State where
  biosImage := some announcingImage
  amdRegisters := some ⟨[Register.message Register.messageName37 1]⟩
  tpm := some (Tpm.fresh [.sha1, .sha256])
  psp := true

def endsAnnounced (r : Option Fault × Boot) : Bool :=
  r.1.isNone && r.2.log.toList.all (·.issues.isEmpty) && r.2.log.toList.any (·.step.announcesStart)
    && r.2.state.tpm.isSome

theorem root_run_round_trips_sample :
    ∃ last t, Boot.complete {} (Boot.ofFlow announcingMachine (Shipped.ref "Root") Boot.usualMaxSteps) =
        (none, last) ∧ last.state.tpm = some t ∧
      ∃ r, Returns (run last.state (some (.ofEntries t.events.toList)) .sha256 {}) r ∧
        (∀ x ∈ r.entries, ∃ c e, x = .matched c e) ∧
        r.issues = [] ∧ r.register = none ∧
        ∃ u v, Tpm.applyAll (r.commandLog.map CommandRecord.command) (Tpm.fresh [.sha256]) = .ok () u ∧
          u.value 0 .sha256 = .ok v ∧ t.value 0 .sha256 = .ok v := by
  have hends : endsAnnounced (Boot.complete {}
      (Boot.ofFlow announcingMachine (Shipped.ref "Root") Boot.usualMaxSteps)) = true := by
    decide +kernel
  cases hcomplete : Boot.complete {}
      (Boot.ofFlow announcingMachine (Shipped.ref "Root") Boot.usualMaxSteps) with
  | mk fault last =>
      rw [hcomplete] at hends
      simp only [endsAnnounced, Bool.and_eq_true, List.all_eq_true, List.any_eq_true,
        List.isEmpty_iff] at hends
      obtain ⟨⟨⟨hnone, hclean⟩, record, hrecord, hannounces⟩, hheld⟩ := hends
      obtain rfl := Option.isNone_iff_eq_none.mp hnone
      obtain ⟨t, ht⟩ := Option.isSome_iff_exists.mp hheld
      obtain ⟨locality, hstep⟩ := Step.exists_of_announcesStart hannounces
      obtain ⟨r, hreturns, hmatched, -, -, hissues, hregister, hreplays⟩ :=
        root_run_round_trips (s := announcingMachine) rfl (fun m hm => absurd hm List.not_mem_nil)
          (by decide) hcomplete hclean ⟨record, hrecord, hstep⟩ ht (a := .sha256) (by decide)
          (ReportedLog.reports_ofEntries _ _ _) {}
      exact ⟨last, t, rfl, ht, r, hreturns, hmatched, hissues, hregister, hreplays⟩

end Reconciliation
end MeasuredBoot
