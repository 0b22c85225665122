import Mathlib.Data.List.Infix
import MeasuredBoot.Proofs.EventLog.Records

/-!
# The records of a log

`Reads` says without fuel how a log is read: record by record, up to its end or to the first bytes at which
no record is next. Every log is read so in exactly one way, and the driver, which counts the records that
it reads, gives the events of these records and ends as they end.

The records that lie wholly within a prefix of the log are the records of that prefix, and they are all
that is read of it; it is read without a fault only if it ends with the last of them.
-/
namespace MeasuredBoot.BinaryLog

/-- From a reader, some records are read, and then the log ends or a fault occurs. -/
inductive Reads : Reader → List Record → Option Fault → Prop
  | ended {r : Reader} (rest : r.rest = []) : Reads r [] none
  | failed {r : Reader} {f : Fault} (error : readRecord r = .error f) : Reads r [] (some f)
  | record {r next : Reader} {w : Record} {later : List Record} {fault : Option Fault}
      (first : Next r w next) (then_ : Reads next later fault) : Reads r (w :: later) fault

namespace Reads
variable {r : Reader} {records : List Record} {fault : Option Fault}

theorem exists_reads (r : Reader) : ∃ records fault, Reads r records fault := by
  induction hlength : r.rest.length using Nat.strong_induction_on generalizing r with
  | _ n ih =>
      by_cases hne : r.rest = []
      · exact ⟨[], none, .ended hne⟩
      cases hread : readRecord r with
      | error f => exact ⟨[], some f, .failed hread⟩
      | ok answer =>
          obtain ⟨w, hnext, -⟩ := exists_next_of_readRecord hne hread
          obtain ⟨later, fault, hlater⟩ := ih _ (hlength ▸ hnext.length_lt) answer.2 rfl
          exact ⟨w :: later, fault, .record hnext hlater⟩

theorem onLog (h : Reads r records fault) {f : Fault} (hf : fault = some f) : f.OfLog := by
  induction h with
  | ended => cases hf
  | failed error =>
      cases hf
      exact onLog_readRecord _ _ error
  | record _ _ ih => exact ih hf

/-- The driver gives the events of the records that are read. -/
theorem readRecords_eq (h : Reads r records fault) {fuel : Nat} (hfuel : r.rest.length < fuel) :
    (readRecords fuel r).events = records.flatMap Record.events ∧ (readRecords fuel r).fault = fault := by
  induction h generalizing fuel with
  | @ended r rest =>
      obtain ⟨fuel, rfl⟩ := Nat.exists_eq_add_one_of_ne_zero (Nat.ne_zero_of_lt hfuel)
      obtain ⟨b, sizes, first⟩ := r
      obtain rfl : b = [] := rest
      rw [readRecords, readRecord_nil]
      exact ⟨rfl, rfl⟩
  | failed error =>
      obtain ⟨fuel, rfl⟩ := Nat.exists_eq_add_one_of_ne_zero (Nat.ne_zero_of_lt hfuel)
      rw [readRecords, error]
      exact ⟨rfl, rfl⟩
  | @record r next w later fault first _ ih =>
      obtain ⟨fuel, rfl⟩ := Nat.exists_eq_add_one_of_ne_zero (Nat.ne_zero_of_lt hfuel)
      have hlt : next.rest.length < fuel := Nat.lt_of_lt_of_le first.length_lt (Nat.le_of_lt_succ hfuel)
      obtain ⟨hevents, hfault⟩ := ih hlt
      obtain ⟨e, rest, heq⟩ := List.exists_cons_of_ne_nil w.events_ne_nil
      rw [readRecords, first.readRecord_eq, List.flatMap_cons, ← hevents, ← hfault, heq]
      exact ⟨rfl, rfl⟩

/-- What was read are the first bytes of the log. -/
theorem bytes_prefix (h : Reads r records fault) : records.flatMap Record.bytes <+: r.rest := by
  induction h with
  | ended => exact List.nil_prefix
  | failed => exact List.nil_prefix
  | record first _ ih =>
      rw [first.rest_eq, List.flatMap_cons]
      exact (List.prefix_append_right_inj _).mpr ih

theorem rest_eq (h : Reads r records none) : r.rest = records.flatMap Record.bytes := by
  generalize hfault : (none : Option Fault) = fault at h
  induction h with
  | ended rest => exact rest
  | failed => cases hfault
  | record first _ ih => rw [first.rest_eq, List.flatMap_cons, ih hfault]

/-- The first records of a log are a log. -/
theorem take (h : Reads r records fault) (k : Nat) :
    Reads { r with rest := (records.take k).flatMap Record.bytes } (records.take k) none := by
  induction h generalizing k with
  | ended =>
      rw [List.take_nil]
      exact .ended rfl
  | failed =>
      rw [List.take_nil]
      exact .ended rfl
  | record first _ ih =>
      cases k with
      | zero => exact .ended rfl
      | succ k => exact .record (first.frame _) (ih k)

theorem exists_reads_nil (h : ∀ w next, ¬ Next r w next) : ∃ fault, Reads r [] fault := by
  obtain ⟨records, fault, hreads⟩ := exists_reads r
  cases hreads with
  | ended rest => exact ⟨_, .ended rest⟩
  | failed error => exact ⟨_, .failed error⟩
  | record first _ => exact absurd first (h _ _)

/-- What is read of a prefix are the records that lie wholly within it. -/
theorem cut (h : Reads r records fault) {p : Bytes} (hp : p <+: r.rest) :
    ∃ k fault', k ≤ records.length ∧ Reads { r with rest := p } (records.take k) fault' ∧
      ∀ j ≤ records.length, (records.take j).flatMap Record.bytes <+: p → j ≤ k := by
  induction h generalizing p with
  | ended rest =>
      obtain rfl : p = [] := List.prefix_nil.mp (rest ▸ hp)
      exact ⟨0, none, Nat.le_refl 0, .ended rfl, fun j hj _ => hj⟩
  | @failed r f error =>
      have hnone (w : Record) (next : Reader) : ¬ Next { r with rest := p } w next := by
        intro hnext
        obtain ⟨later, hlater⟩ := hnext.of_prefix hp
        cases error.symm.trans hlater.readRecord_eq
      obtain ⟨fault', hreads⟩ := exists_reads_nil hnone
      exact ⟨0, fault', Nat.le_refl 0, hreads, fun j hj _ => hj⟩
  | @record r next w later fault first _ ih =>
      by_cases hw : w.bytes <+: p
      · obtain ⟨p', rfl⟩ := hw
        rw [first.rest_eq, List.prefix_append_right_inj] at hp
        obtain ⟨k, fault', hk, hreads, hlast⟩ := ih hp
        refine ⟨k + 1, fault', Nat.succ_le_succ hk, .record (first.frame p') hreads, fun j hj hprefix => ?_⟩
        cases j with
        | zero => exact Nat.zero_le _
        | succ j =>
            rw [List.take_succ_cons, List.flatMap_cons, List.prefix_append_right_inj] at hprefix
            exact Nat.succ_le_succ (hlast j (Nat.le_of_succ_le_succ hj) hprefix)
      · -- A record that is next in the prefix is next in the log, and so it is the record that was cut.
        have hnone (w' : Record) (next' : Reader) : ¬ Next { r with rest := p } w' next' := by
          intro hnext
          obtain ⟨later', hlater⟩ := hnext.of_prefix hp
          rw [← first.bytes_eq hlater] at hw
          exact hw ⟨next'.rest, hnext.rest_eq.symm⟩
        obtain ⟨fault', hreads⟩ := exists_reads_nil hnone
        refine ⟨0, fault', Nat.zero_le _, hreads, fun j _ hprefix => ?_⟩
        cases j with
        | zero => exact Nat.le_refl 0
        | succ j =>
            rw [List.take_succ_cons, List.flatMap_cons] at hprefix
            exact absurd ((List.prefix_append _ _).trans hprefix) hw

end Reads

variable {records : List Record} {fault : Option Fault}

/-- Reading a log gives the events of its records and ends as they end. -/
theorem read_of_reads {b : Bytes} (h : Reads ⟨b, none, true⟩ records fault) :
    (read b).events = records.flatMap Record.events ∧ (read b).fault = fault :=
  h.readRecords_eq (Nat.lt_succ_self _)

theorem parse_of_reads {b : Bytes} (h : Reads ⟨b, none, true⟩ records none) :
    Returns (parse b) (records.flatMap Record.events) := by
  obtain ⟨hevents, hfault⟩ := read_of_reads h
  have hlog : (read b).log = .ok (records.flatMap Record.events) := by
    rw [Outcome.log, hfault, hevents]
  rw [parse]
  dsimp only
  cases (read b).sizes with
  | none => exact Returns.attempt hlog
  | some sizes => exact (Returns.modify _).bind (Returns.attempt hlog)

/-! ## Logs that are cut -/

/-- A log is read to its end or to a fault of its bytes, and its events are those of some records. -/
structure ReadAs (b : Bytes) (records : List Record) : Prop where
  reads : Reads ⟨b, none, true⟩ records (read b).fault
  events : (read b).events = records.flatMap Record.events
  cause : ∀ f, (read b).fault = some f → f.OfLog

theorem Reads.readAs {b : Bytes} (h : Reads ⟨b, none, true⟩ records fault) : ReadAs b records := by
  obtain ⟨hevents, rfl⟩ := read_of_reads h
  exact ⟨h, hevents, fun _ hf => h.onLog hf⟩

/-- A prefix of a log is read as the records that lie wholly within it, and without a fault if and only if
it ends where one of the records ends. -/
theorem read_prefix (b : Bytes) : ∃ records, ReadAs b records ∧ ∀ p, p <+: b →
    ∃ k ≤ records.length, ReadAs p (records.take k) ∧ (read p).events <+: (read b).events ∧
      (∀ j ≤ records.length, (records.take j).flatMap Record.bytes <+: p ↔ j ≤ k) ∧
      ((read p).fault = none ↔ ∃ j, p = (records.take j).flatMap Record.bytes) := by
  obtain ⟨records, fault, hreads⟩ := Reads.exists_reads ⟨b, none, true⟩
  refine ⟨records, hreads.readAs, fun p hp => ?_⟩
  obtain ⟨k, fault', hk, hcut, hlast⟩ := hreads.cut hp
  have hprefix : records.take k <+: records := List.take_prefix k records
  refine ⟨k, hk, hcut.readAs, ?_, fun j hj => ⟨hlast j hj, fun hjk => ?_⟩, ?_⟩
  · rw [hcut.readAs.events, hreads.readAs.events]
    exact hprefix.flatMap _
  · have htake : records.take j <+: records.take k := List.take_prefix_take_left hjk
    exact (htake.flatMap _).trans hcut.bytes_prefix
  · constructor
    · intro hfault
      have hall := hcut.readAs.reads
      rw [hfault] at hall
      exact ⟨k, hall.rest_eq⟩
    · rintro ⟨j, rfl⟩
      exact (read_of_reads (hreads.take j)).2

/-- Two records, the second of which ends after 67 bytes. -/
def sampleLog : Bytes := writeLegacy [⟨0, 1, Bytes.zeros 20, [7]⟩, ⟨0, 4, Bytes.zeros 20, [8, 9]⟩]

/-- Of a log that is cut inside its second record, the first event is read, and a fault follows. -/
theorem read_prefix_sample : sampleLog.take 40 <+: sampleLog ∧ ∃ records, ReadAs sampleLog records ∧
    ∃ k ≤ records.length, ReadAs (sampleLog.take 40) (records.take k) ∧
      (read (sampleLog.take 40)).events = [⟨0, ⟨1⟩, [7], some ⟨.sha1, Bytes.zeros 20⟩⟩] ∧
      (read sampleLog).fault = none ∧ (read (sampleLog.take 40)).fault = some (.log .truncatedHeader) ∧
      ∀ j, sampleLog.take 40 ≠ (records.take j).flatMap Record.bytes := by
  have hp : sampleLog.take 40 <+: sampleLog := List.take_prefix 40 sampleLog
  have hfault : (read (sampleLog.take 40)).fault = some (.log .truncatedHeader) := rfl
  obtain ⟨records, hall, hprefixes⟩ := read_prefix sampleLog
  obtain ⟨k, hk, hcut, -, -, hboundary⟩ := hprefixes _ hp
  refine ⟨hp, records, hall, k, hk, hcut, rfl, rfl, hfault, fun j hj => ?_⟩
  have hnone := hboundary.mpr ⟨j, hj⟩
  rw [hfault] at hnone
  cases hnone

end MeasuredBoot.BinaryLog
