import MeasuredBoot.Proofs.Runs
import MeasuredBoot.Tpm

/-!
# Accepted commands

A TPM that accepts a command changes in one of three ways, which determine what its registers hold after
a whole log of accepted commands: once it is initialised, register zero of an algorithm is the hash chain
over the digests that were extended, and it begins with the locality of the initialisation.
-/
namespace MeasuredBoot.Tpm

/-! ## Values by register -/

theorem put_ne_nil (bank : Bank) (value : Bytes) (values : List (Bank × Bytes)) :
    put bank value values ≠ [] := by
  cases values with
  | nil => simp [put]
  | cons entry rest =>
      rw [put]
      split <;> simp

theorem lookup_put_self (bank : Bank) (value : Bytes) (values : List (Bank × Bytes)) :
    (put bank value values).lookup bank = some value := by
  induction values with
  | nil => simp [put]
  | cons entry rest ih =>
      rw [put]
      split
      · simp
      · rename_i hne
        rw [List.lookup_cons, beq_false_of_ne (Ne.symm hne)]
        exact ih

theorem lookup_put_of_ne {bank other : Bank} (h : other ≠ bank) (value : Bytes)
    (values : List (Bank × Bytes)) : (put bank value values).lookup other = values.lookup other := by
  induction values with
  | nil => simp [put, h]
  | cons entry rest ih =>
      rw [put]
      split
      · rename_i heq
        rw [List.lookup_cons, List.lookup_cons, heq, beq_false_of_ne h]
      · rw [List.lookup_cons, List.lookup_cons, ih]

/-! ## Initialisation -/

theorem initBank_of_ok {locality pcr : Int} {a : Algorithm} {size : Nat} {t u : Tpm}
    (h : initBank locality a size pcr t = .ok () u) :
    ∃ value, u = { t with values := put ⟨pcr, a⟩ value t.values } ∧
      (pcr = 0 → EventLog.startValue size locality = .ok value) := by
  unfold initBank at h
  split at h
  · obtain ⟨value, hstart, hput⟩ := attempt_bind_run_eq_ok_iff.mp h
    cases hput
    exact ⟨value, rfl, fun _ => hstart⟩
  · rename_i hpcr
    cases h
    exact ⟨_, rfl, fun hzero => absurd hzero hpcr⟩

theorem initAlgorithm_of_ok {locality : Int} {a : Algorithm} {t u : Tpm}
    (h : initAlgorithm locality a t = .ok () u) :
    ∃ f start one, a.function? = some f ∧ EventLog.startValue f.digestSize locality = .ok start ∧
      u = { t with values := put ⟨1, a⟩ one (put ⟨0, a⟩ start t.values) } := by
  obtain ⟨size, hfound, hbanks⟩ := attempt_bind_run_eq_ok_iff.mp h
  obtain ⟨f, hf, rfl⟩ : ∃ f, a.function? = some f ∧ f.digestSize = size := by
    unfold digestSize at hfound
    split at hfound
    · cases hfound
    · rename_i f hf
      exact ⟨f, hf, Except.ok.inj hfound⟩
  obtain ⟨⟨⟩, v, hzero, hrest⟩ := bind_run_eq_ok_iff.mp hbanks
  obtain ⟨⟨⟩, w, hone, hdone⟩ := bind_run_eq_ok_iff.mp hrest
  cases hdone
  obtain ⟨start, rfl, hstart⟩ := initBank_of_ok hzero
  obtain ⟨one, rfl, -⟩ := initBank_of_ok hone
  exact ⟨f, start, one, hf, hstart rfl, rfl⟩

theorem initAlgorithms_of_ok {locality : Int} {algorithms : List Algorithm} {t u : Tpm}
    (h : algorithms.forM (initAlgorithm locality) t = .ok () u) :
    u = { t with values := u.values } ∧
      (∀ a ∈ algorithms, ∃ f start, a.function? = some f ∧
        EventLog.startValue f.digestSize locality = .ok start ∧
        u.values.lookup ⟨0, a⟩ = some start) ∧
      (∀ a ∉ algorithms, u.values.lookup ⟨0, a⟩ = t.values.lookup ⟨0, a⟩) ∧
      (u.values = [] ↔ t.values = [] ∧ algorithms = []) := by
  induction algorithms generalizing t with
  | nil =>
      cases h
      simp
  | cons b rest ih =>
      obtain ⟨⟨⟩, v, hb, hrest⟩ := bind_run_eq_ok_iff.mp h
      obtain ⟨f, start, one, hf, hstart, rfl⟩ := initAlgorithm_of_ok hb
      obtain ⟨hu, hin, hout, hnil⟩ := ih hrest
      have hstarted : (put ⟨1, b⟩ one (put ⟨0, b⟩ start t.values)).lookup ⟨0, b⟩ = some start := by
        rw [lookup_put_of_ne (by simp), lookup_put_self]
      refine ⟨hu, fun a ha => ?_, fun a ha => ?_, ?_⟩
      · by_cases hmem : a ∈ rest
        · exact hin a hmem
        · obtain rfl : a = b := by
            rcases List.mem_cons.mp ha with rfl | ha
            · rfl
            · exact absurd ha hmem
          exact ⟨f, start, hf, hstart, (hout a hmem).trans hstarted⟩
      · obtain ⟨hne, hmem⟩ := not_or.mp (List.mem_cons.not.mp ha)
        rw [hout a hmem]
        simp only
        rw [lookup_put_of_ne (by simp), lookup_put_of_ne (by simp [hne])]
      · rw [hnil]
        simp [put_ne_nil]

/-! ## Commands -/

theorem function_of_hashBytes {a : Algorithm} {b digest : Bytes} (h : hashBytes a b = .ok digest) :
    ∃ f, a.function? = some f ∧ f.digest b = digest := by
  unfold hashBytes at h
  split at h
  · cases h
  · rename_i f hf
    exact ⟨f, hf, Except.ok.inj h⟩

theorem lookup_of_value {t : Tpm} {pcr : Int} {a : Algorithm} {v : Bytes}
    (h : t.value pcr a = .ok v) : t.values.lookup ⟨pcr, a⟩ = some v := by
  unfold value at h
  split at h
  · cases h
  · split at h
    · rename_i w hw
      rw [hw, Except.ok.inj h]
    · cases h

theorem values_ne_nil_of_value {t : Tpm} {pcr : Int} {a : Algorithm} {v : Bytes}
    (h : t.value pcr a = .ok v) : t.values ≠ [] := by
  intro hnil
  have hlookup := lookup_of_value h
  rw [hnil] at hlookup
  cases hlookup

theorem setValue_of_ok {pcr : Int} {a : Algorithm} {v : Bytes} {t u : Tpm}
    (h : setValue pcr a v t = .ok () u) : u = { t with values := put ⟨pcr, a⟩ v t.values } := by
  rw [setValue, get_bind_run] at h
  cases hobstacle : t.obstacle? pcr a with
  | some f =>
      rw [hobstacle] at h
      cases h
  | none =>
      rw [hobstacle] at h
      cases h
      rfl

/-- How the values of a TPM change with a command that it accepts. -/
def Follows (t u : Tpm) : Command → Prop
  | .init locality => t.values = [] ∧ (u.values = [] ↔ t.algorithms = []) ∧
      ∀ a ∈ t.algorithms, ∃ f start, a.function? = some f ∧
        EventLog.startValue f.digestSize locality = .ok start ∧ u.values.lookup ⟨0, a⟩ = some start
  | .extend pcr a digest => t.values ≠ [] ∧ ∃ f old, a.function? = some f ∧
      t.values.lookup ⟨pcr, a⟩ = some old ∧ u.values = put ⟨pcr, a⟩ (f.digest (old ++ digest)) t.values
  | .logEvent _ => u.values = t.values

theorem apply_of_ok {c : Command} {t u : Tpm} (h : apply c t = .ok () u) :
    u.commands = t.commands ∧ u.algorithms = t.algorithms ∧ Follows t u c := by
  cases c with
  | init locality =>
      rw [apply, initRegisters, get_bind_run] at h
      split at h
      · cases h
      · rename_i hfree
        obtain ⟨hu, hin, -, hnil⟩ := initAlgorithms_of_ok h
        have hempty : t.values = [] := by simpa [isInitialized] using hfree
        refine ⟨by rw [hu], by rw [hu], hempty, ?_, hin⟩
        rw [hnil]
        exact and_iff_right hempty
  | extend pcr a digest =>
      rw [apply, get_bind_run] at h
      obtain ⟨old, hvalue, h⟩ := attempt_bind_run_eq_ok_iff.mp h
      obtain ⟨new, hhash, h⟩ := attempt_bind_run_eq_ok_iff.mp h
      obtain ⟨f, hf, rfl⟩ := function_of_hashBytes hhash
      obtain rfl := setValue_of_ok h
      exact ⟨rfl, rfl, values_ne_nil_of_value hvalue, f, old, hf, lookup_of_value hvalue, rfl⟩
  | logEvent e =>
      cases h
      exact ⟨rfl, rfl, rfl⟩

theorem execute_of_ok {r : CommandRecord} {t u : Tpm} (h : execute r t = .ok () u) :
    u.commands = t.commands.push r ∧ u.algorithms = t.algorithms ∧ Follows t u r.command :=
  apply_of_ok h

/-- Whether a TPM is initialised after a command that it accepts. -/
def initializedAfter (t : Tpm) : Command → Bool
  | .init _ => !t.algorithms.isEmpty
  | .extend .. => true
  | .logEvent _ => t.isInitialized

theorem isInitialized_of_follows {t u : Tpm} {c : Command} (h : Follows t u c) :
    u.isInitialized = t.initializedAfter c := by
  cases c with
  | init locality =>
      obtain ⟨-, hnil, -⟩ := h
      rw [isInitialized, initializedAfter, Bool.eq_iff_iff]
      simp [hnil]
  | extend pcr a digest =>
      obtain ⟨-, f, old, -, -, hvalues⟩ := h
      simp only [isInitialized, initializedAfter, hvalues, Bool.not_eq_true',
        List.isEmpty_eq_false_iff]
      exact put_ne_nil _ _ _
  | logEvent e =>
      rw [isInitialized, initializedAfter, isInitialized]
      rw [show u.values = t.values from h]

/-! ## Whole logs -/

def extended (a : Algorithm) (cs : List Command) : List Bytes :=
  cs.filterMap fun c =>
    match c with
    | .extend pcr b digest => if pcr = 0 ∧ b = a then some digest else none
    | _ => none

theorem extended_append (a : Algorithm) (cs ds : List Command) :
    extended a (cs ++ ds) = extended a cs ++ extended a ds := List.filterMap_append

/-- Register zero of an algorithm is as the command log says: there was no extend before the
initialisation, and since then it is the hash chain over the digests. -/
def Chained (a : Algorithm) (t : Tpm) : Prop :=
  (t.values = [] ∧ extended a t.commandList = []) ∨
    ∃ f locality start, a.function? = some f ∧ .init locality ∈ t.commandList ∧
      EventLog.startValue f.digestSize locality = .ok start ∧
      t.values.lookup ⟨0, a⟩ = some (EventLog.extendAll f start (extended a t.commandList))

theorem commandList_of_push {t u : Tpm} {r : CommandRecord} (h : u.commands = t.commands.push r) :
    u.commandList = t.commandList ++ [r.command] := by
  rw [commandList, commandList, h, Array.toList_push, List.map_append]
  rfl

theorem chained_execute {a : Algorithm} {r : CommandRecord} {t u : Tpm}
    (h : execute r t = .ok () u) (ha : a ∈ t.algorithms) (hchained : Chained a t) : Chained a u := by
  obtain ⟨hcommands, -, hfollows⟩ := execute_of_ok h
  have hlist := commandList_of_push hcommands
  unfold Chained
  rw [hlist]
  cases hc : r.command with
  | init locality =>
      rw [hc] at hfollows
      obtain ⟨hempty, -, hstarted⟩ := hfollows
      obtain ⟨f, start, hf, hstart, hlookup⟩ := hstarted a ha
      refine Or.inr ⟨f, locality, start, hf, by simp, hstart, ?_⟩
      obtain ⟨-, hnone⟩ | ⟨g, l, v, -, -, -, hheld⟩ := hchained
      · rw [extended_append, hnone, hlookup]
        rfl
      · rw [hempty] at hheld
        cases hheld
  | logEvent e =>
      rw [hc] at hfollows
      rw [show u.values = t.values from hfollows, extended_append]
      simpa [extended] using hchained.imp_right fun
        ⟨f, locality, start, hf, hmem, hstart, hheld⟩ => ⟨f, hf, locality, hmem, start, hstart, hheld⟩
  | extend pcr b digest =>
      rw [hc] at hfollows
      obtain ⟨hheld, g, old, hg, hold, hvalues⟩ := hfollows
      obtain ⟨hempty, -⟩ | ⟨f, locality, start, hf, hmem, hstart, hlookup⟩ := hchained
      · exact absurd hempty hheld
      · refine Or.inr ⟨f, locality, start, hf, by simp [hmem], hstart, ?_⟩
        rw [hvalues, extended_append]
        by_cases hsame : pcr = 0 ∧ b = a
        · obtain ⟨rfl, rfl⟩ := hsame
          obtain rfl := Option.some.inj (hf.symm.trans hg)
          obtain rfl := Option.some.inj (hlookup.symm.trans hold)
          rw [lookup_put_self]
          simp [extended, EventLog.extendAll]
        · have hother : (⟨0, a⟩ : Bank) ≠ ⟨pcr, b⟩ := by
            intro h
            cases h
            exact hsame ⟨rfl, rfl⟩
          rw [lookup_put_of_ne hother, hlookup]
          simp [extended, hsame]

abbrev Accepts (t : Tpm) (rs : List CommandRecord) (u : Tpm) : Prop := rs.forM execute t = .ok () u

def isAccepted (t : Tpm) (rs : List CommandRecord) : Bool :=
  match rs.forM execute t with
  | .ok _ _ => true
  | .error _ _ => false

theorem exists_accepts {t : Tpm} {rs : List CommandRecord} (h : isAccepted t rs = true) :
    ∃ u, Accepts t rs u := by
  unfold isAccepted at h
  split at h
  · rename_i u hu
    exact ⟨u, hu⟩
  · cases h

theorem accepts_cons {t u : Tpm} {r : CommandRecord} {rs : List CommandRecord} :
    Accepts t (r :: rs) u ↔ ∃ t', execute r t = .ok () t' ∧ Accepts t' rs u := by
  apply bind_run_eq_ok_iff.trans
  constructor
  · intro ⟨_, t', h, hrest⟩
    exact ⟨t', h, hrest⟩
  · intro ⟨t', h, hrest⟩
    exact ⟨(), t', h, hrest⟩

theorem accepts_append {t u : Tpm} {rs qs : List CommandRecord} :
    Accepts t (rs ++ qs) u ↔ ∃ t', Accepts t rs t' ∧ Accepts t' qs u := by
  induction rs generalizing t with
  | nil =>
      constructor
      · exact fun h => ⟨t, rfl, h⟩
      · rintro ⟨t', ⟨⟩, h⟩
        exact h
  | cons r rs ih =>
      simp only [List.cons_append, accepts_cons, ih]
      constructor
      · rintro ⟨t', hr, t'', hrs, hqs⟩
        exact ⟨t'', ⟨t', hr, hrs⟩, hqs⟩
      · rintro ⟨t'', ⟨t', hr, hrs⟩, hqs⟩
        exact ⟨t', hr, t'', hrs, hqs⟩

theorem commands_of_accepts {t u : Tpm} {rs : List CommandRecord} (h : Accepts t rs u) :
    u.commands.toList = t.commands.toList ++ rs ∧ u.algorithms = t.algorithms := by
  induction rs generalizing t with
  | nil =>
      cases h
      simp
  | cons r rs ih =>
      obtain ⟨t', hr, hrest⟩ := accepts_cons.mp h
      obtain ⟨hcommands, halgorithms, -⟩ := execute_of_ok hr
      obtain ⟨hlog, hsame⟩ := ih hrest
      rw [hlog, hsame, hcommands, halgorithms, Array.toList_push]
      simp

theorem isInitialized_of_accepts {t u : Tpm} {rs : List CommandRecord} (h : Accepts t rs u)
    (halgorithms : t.algorithms ≠ []) (hinitialized : t.isInitialized = true) :
    u.isInitialized = true := by
  induction rs generalizing t with
  | nil =>
      cases h
      exact hinitialized
  | cons r rs ih =>
      obtain ⟨t', hr, hrest⟩ := accepts_cons.mp h
      obtain ⟨-, hkept, hfollows⟩ := execute_of_ok hr
      apply ih hrest (hkept ▸ halgorithms)
      rw [isInitialized_of_follows hfollows]
      cases r.command with
      | init locality => simpa [initializedAfter] using halgorithms
      | extend pcr a digest => rfl
      | logEvent e => exact hinitialized

theorem chained_accepts {a : Algorithm} {t u : Tpm} {rs : List CommandRecord} (h : Accepts t rs u)
    (ha : a ∈ t.algorithms) (hchained : Chained a t) : Chained a u := by
  induction rs generalizing t with
  | nil =>
      cases h
      exact hchained
  | cons r rs ih =>
      obtain ⟨t', hr, hrest⟩ := accepts_cons.mp h
      have halgorithms := (execute_of_ok hr).2.1
      exact ih hrest (halgorithms ▸ ha) (chained_execute hr ha hchained)

/-- The value of register zero, read off the log of a TPM that accepted every command. -/
theorem value_of_chained {a : Algorithm} {t : Tpm} (h : Chained a t) {v : Bytes}
    (hv : t.value 0 a = .ok v) : ∃ f locality start, a.function? = some f ∧
      .init locality ∈ t.commandList ∧ EventLog.startValue f.digestSize locality = .ok start ∧
      v = EventLog.extendAll f start (extended a t.commandList) := by
  obtain ⟨hempty, -⟩ | ⟨f, locality, start, hf, hmem, hstart, hlookup⟩ := h
  · exact absurd hempty (values_ne_nil_of_value hv)
  · exact ⟨f, locality, start, hf, hmem, hstart,
      Option.some.inj ((lookup_of_value hv).symm.trans hlookup)⟩

theorem exists_value_of_chained {a : Algorithm} {t : Tpm} (h : Chained a t) (ha : a ∈ t.algorithms)
    (hinitialized : t.isInitialized = true) : ∃ v, t.value 0 a = .ok v := by
  obtain ⟨hempty, -⟩ | ⟨f, locality, start, -, -, -, hlookup⟩ := h
  · rw [isInitialized, hempty] at hinitialized
    cases hinitialized
  · have hfree : t.obstacle? 0 a = none := by
      have hregister : (0 : Int) ∈ registers := by decide
      simp [obstacle?, hregister, ha, hinitialized]
    exact ⟨EventLog.extendAll f start (extended a t.commandList), by rw [value, hfree, hlookup]⟩

end MeasuredBoot.Tpm
