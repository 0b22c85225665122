import MeasuredBoot.Proofs.Tpm.Alike
import MeasuredBoot.Proofs.Tpm.Started

/-!
# The table of values

A TPM holds its values in a table by bank. While all of its algorithms can be computed, the table is written
as a whole by the one start that is accepted, and from then on each accepted extend replaces one value by the
next of its hash chain. A command that is refused leaves the table as it is, with one exception: a start fills
in the algorithms before the first one that cannot be computed.
-/
namespace MeasuredBoot.Tpm

/-! ## The values of a chain -/

/-- The value with which a register starts: zeros, with the locality in the last byte of register zero. -/
def firstValue (size : Nat) (locality pcr : Int) : Bytes :=
  if pcr = 0 then Bytes.zeros (size - 1) ++ [UInt8.ofNat locality.toNat] else Bytes.zeros size

theorem length_firstValue {size : Nat} (h : 0 < size) (locality pcr : Int) :
    (firstValue size locality pcr).length = size := by
  unfold firstValue
  split
  · simp
    omega
  · simp

theorem length_extendAll {f : HashFunction} {value : Bytes} (h : value.length = f.digestSize)
    (digests : List Bytes) : (EventLog.extendAll f value digests).length = f.digestSize := by
  induction digests generalizing value with
  | nil => exact h
  | cons digest rest ih => exact ih (f.length_digest _)

theorem extendAll_concat (f : HashFunction) (value digest : Bytes) (digests : List Bytes) :
    EventLog.extendAll f value (digests ++ [digest]) =
      f.digest (EventLog.extendAll f value digests ++ digest) := by
  rw [EventLog.extendAll, List.foldl_append]
  rfl

def digestsInto (bank : Bank) (cs : List Command) : List Bytes :=
  cs.filterMap fun c =>
    match c with
    | .extend pcr a digest => if bank = ⟨pcr, a⟩ then some digest else none
    | _ => none

theorem digestsInto_concat (bank : Bank) (cs : List Command) (c : Command) :
    digestsInto bank (cs ++ [c]) = digestsInto bank cs ++ digestsInto bank [c] :=
  List.filterMap_append

/-- A value of a bank that commands have led to, after a start at a locality. -/
def Chains (locality : Int) (cs : List Command) (bank : Bank) (v : Bytes) : Prop :=
  ∃ f, bank.algorithm.function? = some f ∧
    v = EventLog.extendAll f (firstValue f.digestSize locality bank.pcr) (digestsInto bank cs)

variable {locality : Int} {bank : Bank} {v : Bytes} {cs : List Command} {values : List (Bank × Bytes)}
  {t u : Tpm} {r : CommandRecord} {a : Algorithm}

theorem Chains.concat_of_nil (h : Chains locality cs bank v) {c : Command}
    (hc : digestsInto bank [c] = []) : Chains locality (cs ++ [c]) bank v := by
  obtain ⟨f, hf, hv⟩ := h
  exact ⟨f, hf, by rw [digestsInto_concat, hc, List.append_nil, hv]⟩

theorem Chains.digestSize_eq (h : Chains locality cs bank v) :
    digestSize bank.algorithm = .ok v.length := by
  obtain ⟨f, hf, rfl⟩ := h
  have hpos : 0 < f.digestSize := by cases f <;> decide
  rw [Tpm.digestSize_eq hf, length_extendAll (length_firstValue hpos _ _)]

/-! ## Tables -/

/-- A table with one value for each bank of a set, of a given kind. -/
structure Filled (held : Bank → Prop) (expected : Bank → Bytes → Prop) (values : List (Bank × Bytes)) :
    Prop where
  nodup : (banks values).Nodup
  held_iff : ∀ bank, bank ∈ banks values ↔ held bank
  expected : ∀ bank v, values.lookup bank = some v → expected bank v

/-- The banks of a TPM with some algorithms. -/
def Supports (algorithms : List Algorithm) (bank : Bank) : Prop :=
  bank.pcr ∈ registers ∧ bank.algorithm ∈ algorithms

theorem lookup_of_mem (h : (banks values).Nodup) (hmem : (bank, v) ∈ values) :
    values.lookup bank = some v := by
  induction values with
  | nil => cases hmem
  | cons entry rest ih =>
      obtain ⟨b, w⟩ := entry
      obtain ⟨hfirst, hrest⟩ := List.nodup_cons.mp h
      rcases List.mem_cons.mp hmem with heq | hlater
      · cases heq
        simp
      · have hother : bank ≠ b := by
          intro heq
          subst heq
          exact hfirst (List.mem_map.mpr ⟨(bank, v), hlater, rfl⟩)
        rw [List.lookup_cons, beq_false_of_ne hother]
        exact ih hrest hlater

section Filled
variable {held : Bank → Prop} {expected : Bank → Bytes → Prop}

theorem Filled.of_mem (h : Filled held expected values) (hmem : (bank, v) ∈ values) : expected bank v :=
  h.expected bank v (lookup_of_mem h.nodup hmem)

theorem Filled.mono (h : Filled held expected values) {expected' : Bank → Bytes → Prop}
    (hexpected : ∀ b w, held b → expected b w → expected' b w) : Filled held expected' values where
  nodup := h.nodup
  held_iff := h.held_iff
  expected b w hb := by
    refine hexpected b w ((h.held_iff b).mp ?_) (h.expected b w hb)
    rw [← isSome_lookup_iff, hb, Option.isSome_some]

theorem Filled.put (h : Filled held expected values) {held' : Bank → Prop}
    {expected' : Bank → Bytes → Prop} (hheld : ∀ b, held' b ↔ held b ∨ b = bank)
    (hother : ∀ b w, b ≠ bank → expected b w → expected' b w) (hnew : expected' bank v) :
    Filled held' expected' (put bank v values) where
  nodup := by
    rw [banks_put]
    split
    · exact h.nodup
    · rename_i hmem
      refine List.nodup_append.mpr ⟨h.nodup, List.pairwise_singleton _ bank, fun b hb c hc heq => ?_⟩
      rw [heq, List.mem_singleton.mp hc] at hb
      exact hmem hb
  held_iff b := by
    rw [banks_put, hheld, ← h.held_iff]
    split
    · rename_i hmem
      refine ⟨.inl, fun hb => ?_⟩
      rcases hb with hb | rfl
      · exact hb
      · exact hmem
    · rw [List.mem_append, List.mem_singleton]
  expected b w hb := by
    by_cases hsame : b = bank
    · subst hsame
      rw [lookup_put_self] at hb
      cases hb
      exact hnew
    · rw [lookup_put_of_ne hsame] at hb
      exact hother b w hsame (h.expected b w hb)

end Filled

theorem filled_nil (locality : Int) : Filled (Supports []) (Chains locality []) [] where
  nodup := .nil
  held_iff bank := by simp [Supports]
  expected bank v h := by cases h

/-! ## Starts -/

theorem Filled.initAlgorithm {algorithms : List Algorithm} {f : HashFunction}
    (h : Filled (Supports algorithms) (Chains locality []) values) (hf : a.function? = some f) :
    Filled (Supports (algorithms ++ [a])) (Chains locality [])
      (Tpm.put ⟨1, a⟩ (Bytes.zeros f.digestSize) (Tpm.put ⟨0, a⟩
        (Bytes.zeros (f.digestSize - 1) ++ [UInt8.ofNat locality.toNat]) values)) := by
  have hzero : Filled (fun b => Supports algorithms b ∨ b = ⟨0, a⟩) (Chains locality [])
      (Tpm.put ⟨0, a⟩ (Bytes.zeros (f.digestSize - 1) ++ [UInt8.ofNat locality.toNat]) values) :=
    h.put (fun b => Iff.rfl) (fun b w _ hw => hw) ⟨f, hf, rfl⟩
  refine hzero.put (fun b => ?_) (fun b w _ hw => hw) ⟨f, hf, rfl⟩
  obtain ⟨pcr, b⟩ := b
  simp only [Supports, registers, List.mem_append, List.mem_cons, List.not_mem_nil, or_false,
    Bank.mk.injEq]
  tauto

theorem initAlgorithms_filled {done rest : List Algorithm} (hrest : Computable rest) (hlow : 0 ≤ locality)
    (hhigh : locality ≤ 255) (h : Filled (Supports done) (Chains locality []) t.values) :
    ∃ u, rest.forM (initAlgorithm locality) t = .ok () u ∧
      Filled (Supports (done ++ rest)) (Chains locality []) u.values := by
  induction rest generalizing done t with
  | nil => exact ⟨t, rfl, by rwa [List.append_nil]⟩
  | cons a rest ih =>
      obtain ⟨f, hf⟩ := Option.isSome_iff_exists.mp (hrest a (by simp))
      obtain ⟨v, hfirst, hv⟩ : ∃ v, initAlgorithm locality a t = .ok () v ∧
          Filled (Supports (done ++ [a])) (Chains locality []) v.values :=
        ⟨_, initAlgorithm_eq hf (EventLog.startValue_eq f.digestSize hlow hhigh) t, h.initAlgorithm hf⟩
      obtain ⟨u, hu, hfilled⟩ := ih (fun b hb => hrest b (by simp [hb])) hv
      refine ⟨u, (forM_cons_of_ok hfirst rest).trans hu, ?_⟩
      rwa [List.append_assoc] at hfilled

theorem exists_initAlgorithm_error (t : Tpm)
    (h : ¬ (a.function?.isSome = true ∧ 0 ≤ locality ∧ locality ≤ 255)) :
    ∃ f, initAlgorithm locality a t = .error f t := by
  cases hf : a.function? with
  | none =>
      have hsize : digestSize a = .error (.tpm (.notHashable a)) := by rw [digestSize, hf]
      refine ⟨.tpm (.notHashable a), ?_⟩
      rw [initAlgorithm, hsize]
      rfl
  | some f =>
      have hout : locality < 0 ∨ 255 < locality := by
        simp only [hf, Option.isSome_some, true_and] at h
        omega
      have hstart : EventLog.startValue f.digestSize locality = .error (.encoding .localityInRegister) := by
        rw [EventLog.startValue, if_pos hout]
      refine ⟨.encoding .localityInRegister, ?_⟩
      rw [initAlgorithm, Tpm.digestSize_eq hf, attempt_ok, pure_bind, registers]
      refine bind_of_error ?_ _
      rw [initBank, if_pos rfl, hstart]
      rfl

theorem stays_initAlgorithm_held (locality : Int) (a : Algorithm) :
    Stays (fun t : Tpm => t.values ≠ []) (initAlgorithm locality a) := by
  refine (Stays.attempt _).bind fun size => .forM fun pcr _ => ?_
  unfold initBank
  simp only
  split
  · exact (Stays.attempt _).bind fun value => .modify fun t _ => put_ne_nil _ _ _
  · exact .modify fun t _ => put_ne_nil _ _ _

structure FirstStarts (locality : Int) (algorithms : List Algorithm) : Prop where
  low : 0 ≤ locality
  high : locality ≤ 255
  computable : ∃ a rest, algorithms = a :: rest ∧ a.function?.isSome = true

/-- Algorithms that cannot all be started: the first one is written if it can be, and otherwise nothing. -/
theorem initAlgorithms_error {algorithms : List Algorithm} {f : Fault}
    (h : algorithms.forM (initAlgorithm locality) t = .error f u) :
    (FirstStarts locality algorithms ∧ u.values ≠ []) ∨ (¬ FirstStarts locality algorithms ∧ u = t) := by
  cases algorithms with
  | nil => cases h
  | cons a rest =>
      by_cases hcan : a.function?.isSome = true ∧ 0 ≤ locality ∧ locality ≤ 255
      · obtain ⟨hcomputable, hlow, hhigh⟩ := hcan
        obtain ⟨v, hfirst⟩ := returns_initAlgorithm hcomputable hlow hhigh t
        obtain ⟨g, start, one, -, -, hvalues⟩ := initAlgorithm_of_ok hfirst
        have hv : v.values ≠ [] := by
          rw [hvalues]
          exact put_ne_nil _ _ _
        have hrest : Stays (fun t : Tpm => t.values ≠ []) (rest.forM (initAlgorithm locality)) :=
          .forM fun b _ => stays_initAlgorithm_held locality b
        have hu := hrest v hv
        rw [after_of_error ((forM_cons_of_ok hfirst rest).symm.trans h)] at hu
        exact .inl ⟨⟨hlow, hhigh, a, rest, rfl, hcomputable⟩, hu⟩
      · obtain ⟨g, hg⟩ := exists_initAlgorithm_error t hcan
        have hrefused : (a :: rest).forM (initAlgorithm locality) t = .error g t := bind_of_error hg _
        refine .inr ⟨fun hfirst => ?_, ?_⟩
        · obtain ⟨b, others, hsplit, hcomputable⟩ := hfirst.computable
          obtain ⟨rfl, -⟩ := List.cons.inj hsplit
          exact hcan ⟨hcomputable, hfirst.low, hfirst.high⟩
        · cases hrefused.symm.trans h
          rfl

theorem execute_init_of_initialized (hcommand : r.command = .init locality)
    (h : t.isInitialized = true) :
    execute r t = .error (.tpm .alreadyInitialized) { t with commands := t.commands.push r } := by
  have heq : execute r t = initRegisters locality { t with commands := t.commands.push r } := by
    rw [execute, hcommand]
    rfl
  have hfull : ({ t with commands := t.commands.push r } : Tpm).isInitialized = true := h
  rw [heq, initRegisters, get_bind_run, hfull]
  rfl

theorem execute_init_of_uninitialized (hcommand : r.command = .init locality)
    (h : t.isInitialized = false) :
    execute r t = t.algorithms.forM (initAlgorithm locality) { t with commands := t.commands.push r } := by
  have heq : execute r t = initRegisters locality { t with commands := t.commands.push r } := by
    rw [execute, hcommand]
    rfl
  have hfree : ({ t with commands := t.commands.push r } : Tpm).isInitialized = false := h
  rw [heq, initRegisters, get_bind_run, hfree]
  rfl

/-- A start that is refused has written the first algorithm, if it can, and otherwise nothing. -/
theorem execute_init_error {f : Fault} (hcommand : r.command = .init locality)
    (h : execute r t = .error f u) :
    (t.values = [] ∧ FirstStarts locality t.algorithms ∧ u.values ≠ []) ∨
      (¬ (t.values = [] ∧ FirstStarts locality t.algorithms) ∧
        u = { t with commands := t.commands.push r }) := by
  cases hinitialized : t.isInitialized with
  | true =>
      have hheld : t.values ≠ [] := by simpa [isInitialized] using hinitialized
      cases (execute_init_of_initialized hcommand hinitialized).symm.trans h
      exact .inr ⟨fun hstarts => hheld hstarts.1, rfl⟩
  | false =>
      have hempty : t.values = [] := by simpa [isInitialized] using hinitialized
      rw [execute_init_of_uninitialized hcommand hinitialized] at h
      obtain ⟨hfirst, hheld⟩ | ⟨hfirst, hsame⟩ := initAlgorithms_error h
      · exact .inl ⟨hempty, hfirst, hheld⟩
      · exact .inr ⟨fun hstarts => hfirst hstarts.2, hsame⟩

/-! ## Commands -/

theorem setValue_error {pcr : Int} {f : Fault} (h : setValue pcr a v t = .error f u) : u = t := by
  rw [setValue, get_bind_run] at h
  cases hobstacle : t.obstacle? pcr a with
  | some g =>
      rw [hobstacle] at h
      cases h
      rfl
  | none =>
      rw [hobstacle] at h
      cases h

theorem execute_extend_error {pcr : Int} {digest : Bytes} {f : Fault}
    (hcommand : r.command = .extend pcr a digest) (h : execute r t = .error f u) :
    u = { t with commands := t.commands.push r } := by
  have heq : execute r t = apply (.extend pcr a digest) { t with commands := t.commands.push r } := by
    rw [execute, hcommand]
    rfl
  rw [heq, apply, get_bind_run] at h
  cases hvalue : ({ t with commands := t.commands.push r } : Tpm).value pcr a with
  | error g =>
      rw [hvalue] at h
      cases h
      rfl
  | ok old =>
      rw [hvalue, attempt_ok, pure_bind] at h
      cases hhash : hashBytes a (old ++ digest) with
      | error g =>
          rw [hhash] at h
          cases h
          rfl
      | ok new =>
          rw [hhash, attempt_ok, pure_bind] at h
          exact setValue_error h

/-- A TPM whose algorithms can all be computed writes nothing when it refuses a command. -/
theorem execute_error {f : Fault} (hcomputable : Computable t.algorithms) (h : execute r t = .error f u) :
    u = { t with commands := t.commands.push r } := by
  cases hc : r.command with
  | init locality =>
      obtain ⟨hempty, hfirst, -⟩ | ⟨-, hsame⟩ := execute_init_error hc h
      · have hfree : t.isInitialized = false := by simp [isInitialized, hempty]
        have hreturns : Returns (t.algorithms.forM (initAlgorithm locality)) () :=
          .forM fun a ha => returns_initAlgorithm (hcomputable a ha) hfirst.low hfirst.high
        obtain ⟨v, hv⟩ := hreturns { t with commands := t.commands.push r }
        rw [execute_init_of_uninitialized hc hfree, hv] at h
        cases h
      · exact hsame
  | extend pcr a digest => exact execute_extend_error hc h
  | logEvent e =>
      obtain ⟨v, hv, -⟩ := execute_logEvent hc t
      cases hv.symm.trans h

theorem locality_of_startValue {size : Nat} (h : EventLog.startValue size locality = .ok v) :
    0 ≤ locality ∧ locality ≤ 255 := by
  unfold EventLog.startValue at h
  split at h
  · cases h
  · omega

theorem filled_of_init (hcomputable : Computable t.algorithms) (hsome : t.algorithms ≠ [])
    (hcommand : r.command = .init locality) (h : execute r t = .ok () u) :
    0 ≤ locality ∧ locality ≤ 255 ∧ Filled (Supports t.algorithms) (Chains locality []) u.values := by
  obtain ⟨-, -, hfollows⟩ := execute_of_ok h
  rw [hcommand] at hfollows
  obtain ⟨hempty, -, hstarted⟩ := hfollows
  obtain ⟨a, ha⟩ := List.exists_mem_of_ne_nil _ hsome
  obtain ⟨f, start, -, hstart, -⟩ := hstarted a ha
  obtain ⟨hlow, hhigh⟩ := locality_of_startValue hstart
  have hbefore : Filled (Supports []) (Chains locality [])
      ({ t with commands := t.commands.push r } : Tpm).values := by
    rw [show ({ t with commands := t.commands.push r } : Tpm).values = [] from hempty]
    exact filled_nil locality
  obtain ⟨v, hv, hfilled⟩ := initAlgorithms_filled hcomputable hlow hhigh hbefore
  have hfree : t.isInitialized = false := by simp [isInitialized, hempty]
  rw [execute_init_of_uninitialized hcommand hfree, hv] at h
  cases h
  exact ⟨hlow, hhigh, hfilled⟩

theorem Filled.canExtend {algorithms : List Algorithm} {expected : Bank → Bytes → Prop} {pcr : Int}
    (h : Filled (Supports algorithms) expected t.values) (halgorithms : t.algorithms = algorithms)
    (hheld : ⟨pcr, a⟩ ∈ banks t.values) : t.canExtend pcr a = true := by
  subst halgorithms
  obtain ⟨hregister, halgorithm⟩ := (h.held_iff ⟨pcr, a⟩).mp hheld
  have hinitialized : t.isInitialized = true := by
    rw [isInitialized, Bool.not_eq_true', List.isEmpty_eq_false_iff]
    intro hempty
    rw [hempty] at hheld
    cases hheld
  have hfree : t.obstacle? pcr a = none := by
    have hregister : pcr ∈ registers := hregister
    have halgorithm : a ∈ t.algorithms := halgorithm
    simp [obstacle?, hregister, halgorithm, hinitialized]
  rw [Tpm.canExtend, hfree, (isSome_lookup_iff _ _).mpr hheld]
  rfl

theorem Filled.digestsInto_of_error {Expected : Bank → Bytes → Prop} {f : Fault} {r : CommandRecord}
    (h : Filled (Supports t.algorithms) Expected t.values) (hcomputable : Computable t.algorithms)
    (hrun : Tpm.execute r t = .error f u) {bank : Bank} (hbank : bank ∈ banks t.values) :
    digestsInto bank [r.command] = [] := by
  cases hc : r.command with
  | extend pcr a digest =>
      by_cases hsame : bank = ⟨pcr, a⟩
      · rw [hsame] at hbank
        have hsupported := ((h.held_iff _).mp hbank).2
        obtain ⟨g, hg⟩ := Option.isSome_iff_exists.mp (hcomputable a hsupported)
        obtain ⟨v, hv, -⟩ := execute_extend_of_can hc hg (h.canExtend rfl hbank)
        cases hv.symm.trans hrun
      · simp [digestsInto, hsame]
  | _ => rfl

/-- Every value goes on along its chain with each further command, whether it is accepted or not. -/
theorem Filled.execute {algorithms : List Algorithm}
    (h : Filled (Supports algorithms) (Chains locality cs) t.values)
    (halgorithms : t.algorithms = algorithms) (hheld : t.values ≠ []) (hcomputable : Computable algorithms)
    (r : CommandRecord) :
    Filled (Supports algorithms) (Chains locality (cs ++ [r.command]))
      (after (Tpm.execute r) t).values := by
  subst halgorithms
  have hkept : (∀ bank ∈ banks t.values, digestsInto bank [r.command] = []) →
      Filled (Supports t.algorithms) (Chains locality (cs ++ [r.command])) t.values := by
    intro hnone
    refine h.mono fun b w hb hw => hw.concat_of_nil (hnone b ((h.held_iff b).mpr hb))
  cases hrun : Tpm.execute r t with
  | error f u =>
      rw [after_of_error hrun, execute_error hcomputable hrun]
      exact hkept fun bank hbank => h.digestsInto_of_error hcomputable hrun hbank
  | ok x u =>
      rw [after_of_ok hrun]
      obtain ⟨-, -, hfollows⟩ := execute_of_ok hrun
      cases hc : r.command with
      | init other =>
          rw [hc] at hfollows
          exact absurd hfollows.1 hheld
      | logEvent e =>
          rw [hc] at hfollows hkept
          rw [show u.values = t.values from hfollows]
          exact hkept fun bank _ => rfl
      | extend pcr a digest =>
          rw [hc] at hfollows
          obtain ⟨-, f, old, hf, hold, hvalues⟩ := hfollows
          have hbank : (⟨pcr, a⟩ : Bank) ∈ banks t.values := by
            rw [← isSome_lookup_iff, hold, Option.isSome_some]
          obtain ⟨g, hg, hchain⟩ := h.expected _ _ hold
          obtain rfl := Option.some.inj (hf.symm.trans hg)
          rw [hvalues]
          refine h.put (fun b => ?_) (fun b w hne hw => ?_) ⟨f, hf, ?_⟩
          · refine ⟨.inl, fun hb => ?_⟩
            rcases hb with hb | rfl
            · exact hb
            · exact (h.held_iff _).mp hbank
          · exact hw.concat_of_nil (by simp [digestsInto, hne])
          · rw [digestsInto_concat, hchain]
            simp only [digestsInto, List.filterMap_cons, if_true, List.filterMap_nil, extendAll_concat]

end MeasuredBoot.Tpm
