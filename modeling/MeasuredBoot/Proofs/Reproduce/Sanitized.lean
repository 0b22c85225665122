import Mathlib.Data.List.Basic
import MeasuredBoot.Reproduce.Sanitize

/-!
# Sanitising a command log again

A sanitised log holds no events any more: what was taken from them are extends. Sanitising it again therefore only
moves the initialisation to the front and drops extends of zeros, and a third time has nothing left to do. The logs
which sanitising leaves as they are have at most one initialisation, as their first command, and else only extends by
digests that are not all zero.

An event of the hardware root of trust before the first initialisation becomes an extend before it, which the second
time then follows it. This is all that a repetition changes, as long as no event gives a digest of zeros.
-/
namespace MeasuredBoot.Heuristic
variable {r : CommandRecord} {rest records : List CommandRecord} {digests : List Bytes} {initialized : Bool}

def isInit (r : CommandRecord) : Bool :=
  match r.command with
  | .init _ => true
  | _ => false

/-- The event of the hardware root of trust that a command logs. -/
def trusted? (r : CommandRecord) : Option EventEntry :=
  match r.command with
  | .logEvent e => if isRootOfTrust e then some e else none
  | _ => none

/-- The extend that is taken from a command that logs such an event. -/
def taken? (r : CommandRecord) : Option CommandRecord :=
  (trusted? r).map fun e => { r with command := .ofEvent e }

/-- The commands before the first initialisation, all of them if there is none. -/
def before (records : List CommandRecord) : List CommandRecord := records.takeWhile fun r => !isInit r

def onward (records : List CommandRecord) : List CommandRecord := records.dropWhile fun r => !isInit r

theorem before_cons_of_isInit (h : isInit r = true) : before (r :: rest) = [] := by simp [before, h]

theorem before_cons_of_not_isInit (h : isInit r = false) : before (r :: rest) = r :: before rest := by
  simp [before, h]

theorem onward_cons_of_isInit (h : isInit r = true) : onward (r :: rest) = r :: rest := by simp [onward, h]

theorem onward_cons_of_not_isInit (h : isInit r = false) : onward (r :: rest) = onward rest := by
  simp [onward, h]

theorem taken?_of_isInit (h : isInit r = true) : taken? r = none := by
  unfold isInit at h
  unfold taken? trusted?
  split at h <;> simp_all

theorem taken?_eq_some_iff {x : CommandRecord} : taken? r = some x ↔
    ∃ e, trusted? r = some e ∧ x = { r with command := .extend e.pcr e.algorithm e.digest } := by
  rw [taken?, Option.map_eq_some_iff]
  exact exists_congr fun e => and_congr_right fun _ => eq_comm

theorem keeps_extend {pcr : Int} {a : Algorithm} {digest : Bytes} (h : r.command = .extend pcr a digest) :
    keeps digests r = (!digest.allZero && !digests.contains digest) := by
  rw [keeps, h]

theorem exists_of_keeps (h : keeps digests r = true) : ∃ pcr a digest, r.command = .extend pcr a digest := by
  rw [keeps] at h
  split at h
  · rename_i pcr a digest hcommand
    exact ⟨pcr, a, digest, hcommand⟩
  · cases h

theorem not_isInit_of_extend {pcr : Int} {a : Algorithm} {digest : Bytes}
    (h : r.command = .extend pcr a digest) : isInit r = false := by
  rw [isInit, h]

theorem not_keeps_of_isInit (h : isInit r = true) : keeps digests r = false := by
  unfold isInit at h
  unfold keeps
  split at h <;> simp_all

theorem trusted?_of_extend {pcr : Int} {a : Algorithm} {digest : Bytes}
    (h : r.command = .extend pcr a digest) : trusted? r = none := by
  rw [trusted?, h]

/-! ## One pass -/

theorem leading_cons_of_isInit (h : isInit r = true) : leading initialized (r :: rest) =
    if initialized then leading true rest else r :: leading true rest := by
  unfold isInit at h
  rw [leading]
  split at h <;> simp_all

theorem leading_cons_of_not_isInit (h : isInit r = false) :
    leading initialized (r :: rest) = (taken? r).toList ++ leading initialized rest := by
  unfold isInit at h
  rw [leading, taken?, trusted?]
  split <;> simp_all
  split <;> simp_all

theorem leading_true (records : List CommandRecord) : leading true records = records.filterMap taken? := by
  induction records with
  | nil => rfl
  | cons r rest ih =>
      cases h : isInit r with
      | true => rw [leading_cons_of_isInit h, if_pos rfl, ih, List.filterMap_cons_none (taken?_of_isInit h)]
      | false =>
          rw [leading_cons_of_not_isInit h, ih, List.filterMap_cons]
          cases taken? r <;> rfl

/-- The initialisation stands among the extends that are taken from events where it stood among the events. -/
theorem leading_false (records : List CommandRecord) : leading false records =
    (before records).filterMap taken? ++ (records.find? isInit).toList ++ (onward records).filterMap taken? := by
  induction records with
  | nil => rfl
  | cons r rest ih =>
      cases h : isInit r with
      | true =>
          rw [leading_cons_of_isInit h, leading_true, before_cons_of_isInit h, onward_cons_of_isInit h,
            List.find?_cons_of_pos h, List.filterMap_cons_none (taken?_of_isInit h)]
          rfl
      | false =>
          rw [leading_cons_of_not_isInit h, ih, before_cons_of_not_isInit h, onward_cons_of_not_isInit h,
            List.find?_cons_of_neg (by simp [h]), List.filterMap_cons]
          cases taken? r <;> simp

theorem denied_eq (records : List CommandRecord) :
    denied records = records.filterMap fun r => (trusted? r).map EventEntry.digest := by
  refine List.filterMap_congr fun r _ => ?_
  cases hcommand : r.command with
  | init => simp [trusted?, hcommand]
  | extend => simp [trusted?, hcommand]
  | logEvent e =>
      simp only [trusted?, hcommand]
      split <;> rfl

/-- Nothing is taken from a log without events of the hardware root of trust, and no digest denied. -/
theorem sanitize_of_untrusted (h : ∀ r ∈ records, trusted? r = none) :
    sanitize records = (records.find? isInit).toList ++ records.filter (keeps []) := by
  have hnone : ∀ part : List CommandRecord, part ⊆ records → part.filterMap taken? = [] := by
    intro part hsub
    refine List.filterMap_eq_nil_iff.mpr fun r hr => ?_
    rw [taken?, h r (hsub hr)]
    rfl
  have hdenied : denied records = [] := by
    rw [denied_eq]
    refine List.filterMap_eq_nil_iff.mpr fun r hr => ?_
    rw [h r hr]
    rfl
  rw [sanitize, leading_false, hnone (before records) (List.takeWhile_subset _),
    hnone (onward records) (List.dropWhile_subset _), hdenied,
    List.nil_append, List.append_nil]

/-! ## Sanitised logs -/

/-- A log of at most one initialisation, and then extends by digests that are not all zero. -/
def Settled (records : List CommandRecord) : Prop :=
  ∃ (start : Option CommandRecord) (later : List CommandRecord), records = start.toList ++ later ∧
    (∀ r ∈ start, isInit r = true) ∧ ∀ r ∈ later, keeps [] r = true

theorem trusted?_of_isInit (h : isInit r = true) : trusted? r = none := by
  simpa [taken?] using taken?_of_isInit h

theorem trusted?_of_mem_sanitize (h : r ∈ sanitize records) : trusted? r = none := by
  have htaken : ∀ part : List CommandRecord, r ∈ part.filterMap taken? → trusted? r = none := by
    intro part hr
    obtain ⟨x, -, hx⟩ := List.mem_filterMap.mp hr
    obtain ⟨e, -, rfl⟩ := taken?_eq_some_iff.mp hx
    rfl
  rw [sanitize, leading_false, List.mem_append, List.mem_append, List.mem_append] at h
  rcases h with ((h | h) | h) | h
  · exact htaken _ h
  · exact trusted?_of_isInit (List.find?_some (Option.mem_toList.mp h))
  · exact htaken _ h
  · obtain ⟨pcr, a, digest, hr⟩ := exists_of_keeps (List.mem_filter.mp h).2
    exact trusted?_of_extend hr

theorem find?_sanitize (records : List CommandRecord) : (sanitize records).find? isInit = records.find? isInit := by
  have htaken : ∀ part : List CommandRecord, (part.filterMap taken?).find? isInit = none := by
    intro part
    refine List.find?_eq_none.mpr fun r hr => ?_
    obtain ⟨x, -, hx⟩ := List.mem_filterMap.mp hr
    obtain ⟨e, -, rfl⟩ := taken?_eq_some_iff.mp hx
    exact Bool.false_ne_true
  have hkept : (records.filter (keeps (denied records))).find? isInit = none := by
    refine List.find?_eq_none.mpr fun r hr => ?_
    obtain ⟨pcr, a, digest, hr⟩ := exists_of_keeps (List.mem_filter.mp hr).2
    simp [not_isInit_of_extend hr]
  rw [sanitize, leading_false]
  simp only [List.find?_append, htaken, hkept, Option.none_or, Option.or_none]
  cases h : records.find? isInit with
  | none => rfl
  | some r => exact List.find?_cons_of_pos (List.find?_some h)

/-- The second time, the initialisation comes first, and extends of zeros are dropped. -/
theorem sanitize_sanitize (records : List CommandRecord) : sanitize (sanitize records) =
    (records.find? isInit).toList ++ (sanitize records).filter (keeps []) := by
  rw [sanitize_of_untrusted fun r hr => trusted?_of_mem_sanitize hr, find?_sanitize]

theorem settled_sanitize_sanitize (records : List CommandRecord) : Settled (sanitize (sanitize records)) := by
  refine ⟨records.find? isInit, (sanitize records).filter (keeps []), sanitize_sanitize records, ?_, ?_⟩
  · exact fun r hr => List.find?_some hr
  · exact fun r hr => (List.mem_filter.mp hr).2

/-- Sanitising leaves exactly the settled logs as they are. -/
theorem sanitize_eq_self_iff : sanitize records = records ↔ Settled records := by
  constructor
  · intro h
    rw [← h, ← h]
    exact settled_sanitize_sanitize records
  · rintro ⟨start, later, rfl, hstart, hlater⟩
    have hfind : later.find? isInit = none := by
      refine List.find?_eq_none.mpr fun r hr => ?_
      obtain ⟨pcr, a, digest, hr⟩ := exists_of_keeps (hlater r hr)
      simp [not_isInit_of_extend hr]
    have hfilter : later.filter (keeps []) = later := List.filter_eq_self.mpr hlater
    rw [sanitize_of_untrusted]
    · cases start with
      | none => simp [hfind, hfilter]
      | some r =>
          have hr := hstart r rfl
          simp [hr, hfilter, not_keeps_of_isInit hr]
    · intro r hr
      rcases List.mem_append.mp hr with hr | hr
      · exact trusted?_of_isInit (hstart r (Option.mem_toList.mp hr))
      · obtain ⟨pcr, a, digest, hr⟩ := exists_of_keeps (hlater r hr)
        exact trusted?_of_extend hr

/-! ## Logs without digests of zeros among the events -/

/-- No event of the hardware root of trust gives a digest of zeros. -/
def EventsNonzero (records : List CommandRecord) : Prop :=
  ∀ r ∈ records, ∀ e ∈ trusted? r, e.digest.allZero = false

instance (records : List CommandRecord) : Decidable (EventsNonzero records) :=
  inferInstanceAs (Decidable (∀ r ∈ records, ∀ e ∈ trusted? r, e.digest.allZero = false))

/-- If there is an initialisation, no event of the hardware root of trust stands before the first one. -/
def StartsFirst (records : List CommandRecord) : Prop :=
  (∃ r ∈ records, isInit r = true) → ∀ r ∈ before records, trusted? r = none

instance (records : List CommandRecord) : Decidable (StartsFirst records) :=
  inferInstanceAs (Decidable ((∃ r ∈ records, isInit r = true) → ∀ r ∈ before records, trusted? r = none))

theorem filter_keeps_taken {part : List CommandRecord} (h : EventsNonzero part) :
    (part.filterMap taken?).filter (keeps []) = part.filterMap taken? := by
  refine List.filter_eq_self.mpr fun x hx => ?_
  obtain ⟨r, hr, hx⟩ := List.mem_filterMap.mp hx
  obtain ⟨e, he, rfl⟩ := taken?_eq_some_iff.mp hx
  have hkeeps : keeps [] { r with command := .extend e.pcr e.algorithm e.digest } =
      (!e.digest.allZero && !([] : List Bytes).contains e.digest) := keeps_extend rfl
  simp [hkeeps, h r hr e he]

theorem filter_keeps_sanitize (h : EventsNonzero records) : (sanitize records).filter (keeps []) =
    (before records).filterMap taken? ++ (onward records).filterMap taken? ++
      records.filter (keeps (denied records)) := by
  have hbefore : EventsNonzero (before records) := fun r hr => h r (List.takeWhile_subset _ hr)
  have honward : EventsNonzero (onward records) := fun r hr => h r (List.dropWhile_subset _ hr)
  have hstart : (records.find? isInit).toList.filter (keeps []) = [] := by
    refine List.filter_eq_nil_iff.mpr fun r hr => ?_
    simp [not_keeps_of_isInit (List.find?_some (Option.mem_toList.mp hr))]
  have hkept : (records.filter (keeps (denied records))).filter (keeps []) =
      records.filter (keeps (denied records)) := by
    refine List.filter_eq_self.mpr fun r hr => ?_
    have hkeeps := (List.mem_filter.mp hr).2
    obtain ⟨pcr, a, digest, hcommand⟩ := exists_of_keeps hkeeps
    rw [keeps_extend hcommand] at hkeeps ⊢
    simp_all
  rw [sanitize, leading_false]
  simp only [List.filter_append, filter_keeps_taken hbefore, filter_keeps_taken honward, hstart, hkept,
    List.append_nil]

/-- If no event gives a digest of zeros, a repetition selects the same commands, and only the place of the
initialisation may change. -/
theorem perm_sanitize_sanitize (h : EventsNonzero records) :
    (sanitize (sanitize records)).Perm (sanitize records) := by
  rw [sanitize_sanitize, filter_keeps_sanitize h, sanitize, leading_false]
  simp only [← List.append_assoc]
  exact List.Perm.append_right _ (List.Perm.append_right _ List.perm_append_comm)

theorem filterMap_taken?_eq_nil_iff {part : List CommandRecord} :
    part.filterMap taken? = [] ↔ ∀ r ∈ part, trusted? r = none := by
  simp only [List.filterMap_eq_nil_iff, taken?, Option.map_eq_none_iff]

/-- That place does not change exactly if the initialisation comes first. -/
theorem sanitize_sanitize_eq_iff (h : EventsNonzero records) :
    sanitize (sanitize records) = sanitize records ↔ StartsFirst records := by
  rw [sanitize_sanitize, filter_keeps_sanitize h, sanitize, leading_false]
  simp only [← List.append_assoc, List.append_left_inj]
  cases hfind : records.find? isInit with
  | none =>
      refine iff_of_true (by simp) ?_
      rintro ⟨r, hr, hinit⟩
      exact absurd hinit (List.find?_eq_none.mp hfind r hr)
  | some r =>
      have hr := List.find?_some hfind
      have hstarts : StartsFirst records ↔ (before records).filterMap taken? = [] := by
        rw [filterMap_taken?_eq_nil_iff, StartsFirst, forall_prop_of_true]
        exact ⟨r, List.mem_of_find?_eq_some hfind, hr⟩
      rw [hstarts]
      cases hbefore : (before records).filterMap taken? with
      | nil => exact iff_of_true (by simp) rfl
      | cons x later =>
          refine iff_of_false (fun heq => ?_) (List.cons_ne_nil x later)
          -- The first command would be both the initialisation and an extend.
          obtain ⟨y, -, hy⟩ := List.mem_filterMap.mp (hbefore ▸ List.mem_cons_self)
          obtain ⟨e, -, rfl⟩ := taken?_eq_some_iff.mp hy
          obtain ⟨rfl, -⟩ := List.cons.inj heq
          cases hr

/-! ## Naming the heuristic -/

theorem applyAll_replicate_succ (n : Nat) (records : List CommandRecord) :
    applyAll (List.replicate (n + 1) "hrot_sanitize") records =
      applyAll (List.replicate n "hrot_sanitize") (sanitize records) := by
  rw [List.replicate_succ, applyAll, List.foldlM_cons]
  rfl

/-- A log that sanitising leaves as it is stays as it is however often the heuristic is named. -/
theorem applyAll_of_settled (h : Settled records) (n : Nat) :
    applyAll (List.replicate n "hrot_sanitize") records = .ok records := by
  induction n with
  | zero => rfl
  | succ n ih => rw [applyAll_replicate_succ, sanitize_eq_self_iff.mpr h, ih]

/-- Sanitising again moves the initialisation to the front and drops extends of zeros, and changes nothing from the
third time on, so all that counts is whether the heuristic is named never, once or more often. Exactly the settled
logs are left as they are. Where no event gives a digest of zeros, a repetition selects the same commands up to the
place of the initialisation, and leaves it in its place exactly if no event stands before it. -/
theorem sanitize_settles (records : List CommandRecord) :
    sanitize (sanitize records) = (records.find? isInit).toList ++ (sanitize records).filter (keeps []) ∧
    (∀ n, applyAll (List.replicate (n + 2) "hrot_sanitize") records = .ok (sanitize (sanitize records))) ∧
    (sanitize records = records ↔ Settled records) ∧
    (EventsNonzero records →
      (sanitize (sanitize records)).Perm (sanitize records) ∧
      ((∀ n, applyAll (List.replicate (n + 1) "hrot_sanitize") records = .ok (sanitize records)) ↔
        StartsFirst records)) := by
  have hmore : ∀ n, applyAll (List.replicate (n + 2) "hrot_sanitize") records =
      .ok (sanitize (sanitize records)) := by
    intro n
    rw [applyAll_replicate_succ, applyAll_replicate_succ,
      applyAll_of_settled (settled_sanitize_sanitize records)]
  refine ⟨sanitize_sanitize records, hmore, sanitize_eq_self_iff, fun h => ⟨perm_sanitize_sanitize h, ?_⟩⟩
  rw [← sanitize_sanitize_eq_iff h]
  constructor
  · intro hall
    exact Except.ok.inj ((hmore 0).symm.trans (hall 1))
  · intro heq n
    rw [applyAll_replicate_succ, applyAll_of_settled]
    rw [← heq]
    exact settled_sanitize_sanitize records

def recorded (cs : List Command) : List CommandRecord := cs.map fun c => ⟨c, none, none⟩

def sampleEvent : EventEntry :=
  ⟨0, .sha256, List.replicate 32 0xAA, .postCode, some (Bytes.ofLatin "HRoT Measurement: PSP")⟩

/-- A log that starts the TPM twice, with an event after the first start, its extend, and an extend of zeros. -/
def twoStarts : List CommandRecord := recorded [
  .init 3, .extend 0 .sha256 (List.replicate 32 1), .logEvent sampleEvent, .init 0, .ofEvent sampleEvent,
  .extend 0 .sha256 (List.replicate 32 0), .extend 0 .sha256 (List.replicate 32 3)]

def lateStart : List CommandRecord := recorded [.logEvent sampleEvent, .init 3]

/-- What is selected of a log that starts twice does not change, and of one that starts late only its order. -/
theorem sanitize_settles_samples : EventsNonzero twoStarts ∧ StartsFirst twoStarts ∧
    (∀ n, applyAll (List.replicate (n + 1) "hrot_sanitize") twoStarts = .ok (sanitize twoStarts)) ∧
    EventsNonzero lateStart ∧ (sanitize (sanitize lateStart)).Perm (sanitize lateStart) := by
  have htwo : EventsNonzero twoStarts := by decide +kernel
  have hfirst : StartsFirst twoStarts := by decide +kernel
  have hlate : EventsNonzero lateStart := by decide +kernel
  obtain ⟨-, -, -, hexact⟩ := sanitize_settles twoStarts
  obtain ⟨-, -, -, hperm⟩ := sanitize_settles lateStart
  exact ⟨htwo, hfirst, (hexact htwo).2.mpr hfirst, hlate, (hperm hlate).1⟩

/-- The extend of an event before the start stands before it after one time, and behind it after two. -/
theorem lateStart_moved :
    (sanitize lateStart).map CommandRecord.command = [.ofEvent sampleEvent, .init 3] ∧
    (sanitize (sanitize lateStart)).map CommandRecord.command = [.init 3, .ofEvent sampleEvent] ∧
    sanitize (sanitize lateStart) ≠ sanitize lateStart := by
  have honce : (sanitize lateStart).map CommandRecord.command = [.ofEvent sampleEvent, .init 3] := by
    decide +kernel
  have htwice : (sanitize (sanitize lateStart)).map CommandRecord.command =
      [.init 3, .ofEvent sampleEvent] := by
    decide +kernel
  refine ⟨honce, htwice, fun heq => ?_⟩
  rw [heq, honce] at htwice
  cases htwice

end MeasuredBoot.Heuristic
