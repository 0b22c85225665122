import MeasuredBoot.Proofs.Action.Issued
import MeasuredBoot.Proofs.Lockstep

/-!
# What a TPM does not tell of its values

Two TPMs are alike if they support the same algorithms and hold values of the same registers, whatever these
values are. Whether a TPM accepts a command does not depend on the values which it holds, nor on the digest
which the command carries; so two TPMs that are alike stay so under commands that differ in their digests, and
refuse them for the same reason.
-/
namespace MeasuredBoot

/-- Two commands that are the same up to the digests which they carry. -/
inductive Command.SameShape : Command → Command → Prop
  | init (locality : Int) : SameShape (.init locality) (.init locality)
  | extend (pcr : Int) (a : Algorithm) (digest digest' : Bytes) :
      SameShape (.extend pcr a digest) (.extend pcr a digest')
  | logEvent (e : EventEntry) (digest' : Bytes) :
      SameShape (.logEvent e) (.logEvent { e with digest := digest' })

theorem Command.SameShape.refl (c : Command) : c.SameShape c := by
  cases c with
  | init locality => exact .init locality
  | extend pcr a digest => exact .extend pcr a digest digest
  | logEvent e => exact .logEvent e e.digest

theorem parallel_hashBytes (a : Algorithm) (b b' : Bytes) :
    Parallel (fun _ _ => True) (hashBytes a b) (hashBytes a b') := by
  unfold hashBytes
  cases a.function? with
  | none => rfl
  | some f => trivial

namespace Tpm

abbrev banks (values : List (Bank × Bytes)) : List Bank := values.map Prod.fst

/-- Two TPMs that support the same algorithms and hold values in the same banks. -/
structure Alike (t t' : Tpm) : Prop where
  algorithms : t'.algorithms = t.algorithms
  banks : banks t'.values = banks t.values

/-! ## Banks -/

theorem banks_put (bank : Bank) (value : Bytes) (values : List (Bank × Bytes)) :
    banks (put bank value values) =
      if bank ∈ banks values then banks values else banks values ++ [bank] := by
  induction values with
  | nil => rfl
  | cons entry rest ih =>
      obtain ⟨b, v⟩ := entry
      rw [put]
      by_cases hsame : b = bank
      · simp [hsame]
      · have hother : ¬ bank = b := fun h => hsame h.symm
        rw [if_neg hsame, banks, List.map_cons, show List.map Prod.fst (put bank value rest) = _ from ih]
        by_cases hmem : bank ∈ banks rest
        · simp [hmem]
        · simp [hmem, hother]

theorem isSome_lookup_iff (bank : Bank) (values : List (Bank × Bytes)) :
    (values.lookup bank).isSome = true ↔ bank ∈ banks values := by
  induction values with
  | nil => simp
  | cons entry rest ih =>
      obtain ⟨b, v⟩ := entry
      by_cases hsame : bank = b
      · simp [hsame]
      · have hother : (bank == b) = false := beq_eq_false_iff_ne.mpr hsame
        rw [List.lookup_cons, hother, ih, banks, banks, List.map_cons, List.mem_cons]
        exact (or_iff_right hsame).symm

namespace Alike
variable {t t' : Tpm} (h : t.Alike t')
include h

theorem isInitialized_eq : t'.isInitialized = t.isInitialized := by
  have hempty : ∀ values : List (Bank × Bytes), values.isEmpty = (Tpm.banks values).isEmpty := by
    intro values
    rw [List.isEmpty_map]
  rw [isInitialized, isInitialized, hempty, hempty, h.banks]

theorem obstacle_eq (pcr : Int) (a : Algorithm) : t'.obstacle? pcr a = t.obstacle? pcr a := by
  rw [obstacle?, obstacle?, h.algorithms, h.isInitialized_eq]

theorem isSome_lookup_eq (bank : Bank) :
    (t'.values.lookup bank).isSome = (t.values.lookup bank).isSome := by
  rw [Bool.eq_iff_iff, isSome_lookup_iff, isSome_lookup_iff, h.banks]

theorem canExtend_eq (pcr : Int) (a : Algorithm) : t'.canExtend pcr a = t.canExtend pcr a := by
  rw [canExtend, canExtend, h.obstacle_eq, h.isSome_lookup_eq]

theorem parallel_value (pcr : Int) (a : Algorithm) :
    Parallel (fun _ _ => True) (t.value pcr a) (t'.value pcr a) := by
  unfold value
  rw [h.obstacle_eq]
  cases t.obstacle? pcr a with
  | some f => rfl
  | none =>
      have hheld := h.isSome_lookup_eq ⟨pcr, a⟩
      cases hold : t.values.lookup ⟨pcr, a⟩ <;> cases hold' : t'.values.lookup ⟨pcr, a⟩ <;>
        rw [hold, hold'] at hheld
      · rfl
      · cases hheld
      · cases hheld
      · trivial

theorem put (bank : Bank) (value value' : Bytes) :
    Alike { t with values := Tpm.put bank value t.values }
      { t' with values := Tpm.put bank value' t'.values } where
  algorithms := h.algorithms
  banks := by rw [banks_put, banks_put, h.banks]

end Alike

/-! ## Commands -/

theorem lockstep_initBank (locality : Int) (a : Algorithm) (size : Nat) (pcr : Int) :
    Lockstep Alike (initBank locality a size pcr) (initBank locality a size pcr) := by
  unfold initBank
  simp only
  split
  · exact .attempt_bind (Parallel.refl (R := Eq) (fun _ => rfl) _) fun value value' _ =>
      .modify fun t t' h => h.put _ _ _
  · exact .modify fun t t' h => h.put _ _ _

theorem lockstep_initRegisters (locality : Int) :
    Lockstep Alike (initRegisters locality) (initRegisters locality) := by
  refine .get_bind fun t t' h => ?_
  rw [h.isInitialized_eq]
  have hinit : Lockstep Alike (do (← get).algorithms.forM (initAlgorithm locality))
      (do (← get).algorithms.forM (initAlgorithm locality)) := by
    refine .get_bind fun u u' hu => ?_
    rw [hu.algorithms]
    refine .forM fun a _ => .attempt_bind (Parallel.refl (R := Eq) (fun _ => rfl) _) ?_
    rintro size _ rfl
    exact .forM fun pcr _ => lockstep_initBank locality a size pcr
  split
  · exact .throw _
  · exact hinit

theorem lockstep_setValue (pcr : Int) (a : Algorithm) (value value' : Bytes) :
    Lockstep Alike (setValue pcr a value) (setValue pcr a value') := by
  refine .get_bind fun t t' h => ?_
  rw [h.obstacle_eq]
  split
  · exact .throw _
  · exact .modify fun u u' hu => hu.put _ _ _

theorem lockstep_apply {c c' : Command} (h : c.SameShape c') : Lockstep Alike (apply c) (apply c') := by
  cases h with
  | init locality => exact lockstep_initRegisters locality
  | logEvent e digest' => exact .modify fun t t' ht => ⟨ht.algorithms, ht.banks⟩
  | extend pcr a digest digest' =>
      refine .get_bind fun t t' ht => .attempt_bind (ht.parallel_value pcr a) fun old old' _ => ?_
      refine .attempt_bind (parallel_hashBytes a _ _) fun new new' _ => ?_
      exact lockstep_setValue pcr a new new'

/-- Two TPMs that are alike stay so under a command and one of the same shape, wherever these come from. -/
theorem lockstep_execute {r r' : CommandRecord} (h : r.command.SameShape r'.command) :
    Lockstep Alike (execute r) (execute r') :=
  Lockstep.bind (.modify fun _ _ ht => ⟨ht.algorithms, ht.banks⟩) fun _ => lockstep_apply h

end Tpm
end MeasuredBoot
