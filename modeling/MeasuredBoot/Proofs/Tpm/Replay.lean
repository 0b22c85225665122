import MeasuredBoot.Proofs.Runs
import MeasuredBoot.Tpm

/-!
# Replaying extends of register zero

Extends of register zero with one algorithm, replayed on a TPM with that algorithm, never fail if the
algorithm can be computed and the locality fits into a byte; the value afterwards is the hash chain over
their digests.
-/
namespace MeasuredBoot

/-- A locality that fits into a byte is written into the last byte of the first value. -/
theorem EventLog.startValue_eq {locality : Int} (size : Nat) (hlow : 0 ≤ locality)
    (hhigh : locality ≤ 255) :
    startValue size locality = .ok (Bytes.zeros (size - 1) ++ [UInt8.ofNat locality.toNat]) := by
  have hfits : ¬ (locality < 0 ∨ 255 < locality) := by omega
  rw [startValue, if_neg hfits]

namespace Tpm
variable {a : Algorithm} {f : HashFunction}

theorem hashBytes_eq (h : a.function? = some f) (b : Bytes) : hashBytes a b = .ok (f.digest b) := by
  rw [hashBytes, h]

theorem digestSize_eq (h : a.function? = some f) : digestSize a = .ok f.digestSize := by
  rw [digestSize, h]

/-- A TPM with the two registers of one algorithm. -/
def Holds (t : Tpm) (a : Algorithm) (zero one : Bytes) : Prop :=
  t.algorithms = [a] ∧ t.values = [(⟨0, a⟩, zero), (⟨1, a⟩, one)]

theorem value_of_holds {t : Tpm} {zero one : Bytes} (h : t.Holds a zero one) :
    t.value 0 a = .ok zero := by
  obtain ⟨halg, hvalues⟩ := h
  simp [value, obstacle?, isInitialized, halg, hvalues, registers]

theorem apply_extend_of_holds (hf : a.function? = some f) {t : Tpm} {zero one : Bytes}
    (h : t.Holds a zero one) (digest : Bytes) :
    ∃ t', apply (.extend 0 a digest) t = .ok () t' ∧ t'.Holds a (f.digest (zero ++ digest)) one := by
  have hvalue := value_of_holds h
  obtain ⟨halg, hvalues⟩ := h
  have hfree : t.obstacle? 0 a = none := by
    simp [obstacle?, isInitialized, halg, hvalues, registers]
  refine ⟨{ t with values := put ⟨0, a⟩ (f.digest (zero ++ digest)) t.values }, ?_, halg, ?_⟩
  · have hget : (get : Run Tpm) t = .ok t t := rfl
    rw [apply, bind_of_ok hget, hvalue, attempt_ok, pure_bind, hashBytes_eq hf, attempt_ok, pure_bind,
      setValue, bind_of_ok hget, hfree]
    rfl
  · simp [hvalues, put]

theorem applyAll_extends_of_holds (hf : a.function? = some f) (digests : List Bytes) {t : Tpm}
    {zero one : Bytes} (h : t.Holds a zero one) :
    ∃ t', applyAll (digests.map (.extend 0 a)) t = .ok () t' ∧
      t'.Holds a (EventLog.extendAll f zero digests) one := by
  induction digests generalizing t zero with
  | nil => exact ⟨t, rfl, h⟩
  | cons digest rest ih =>
      obtain ⟨t', hstep, ht'⟩ := apply_extend_of_holds hf h digest
      obtain ⟨t'', hrest, ht''⟩ := ih ht'
      exact ⟨t'', (bind_of_ok hstep _).trans hrest, ht''⟩

theorem initBank_zero {size : Nat} {locality : Int} {start : Bytes}
    (hstart : EventLog.startValue size locality = .ok start) (a : Algorithm) (t : Tpm) :
    initBank locality a size 0 t = .ok () { t with values := put ⟨0, a⟩ start t.values } := by
  simp only [initBank, if_true, hstart, attempt_ok, pure_bind]
  rfl

theorem initBank_one (locality : Int) (a : Algorithm) (size : Nat) (t : Tpm) :
    initBank locality a size 1 t = .ok () { t with values := put ⟨1, a⟩ (Bytes.zeros size) t.values } := by
  simp only [initBank, Int.one_ne_zero, if_false, pure_bind]
  rfl

theorem initAlgorithm_eq (hf : a.function? = some f) {locality : Int} {start : Bytes}
    (hstart : EventLog.startValue f.digestSize locality = .ok start) (t : Tpm) :
    initAlgorithm locality a t = .ok () { t with
      values := put ⟨1, a⟩ (Bytes.zeros f.digestSize) (put ⟨0, a⟩ start t.values) } := by
  rw [initAlgorithm, digestSize_eq hf, attempt_ok, pure_bind, registers,
    forM_cons_of_ok (initBank_zero hstart a t), forM_cons_of_ok (initBank_one _ _ _ _)]
  rfl

theorem apply_init_fresh (hf : a.function? = some f) {locality : Int} {start : Bytes}
    (hstart : EventLog.startValue f.digestSize locality = .ok start) :
    ∃ t', apply (.init locality) (fresh [a]) = .ok () t' ∧
      t'.Holds a start (Bytes.zeros f.digestSize) := by
  refine ⟨{ fresh [a] with
    values := [(⟨0, a⟩, start), (⟨1, a⟩, Bytes.zeros f.digestSize)] }, ?_, rfl, rfl⟩
  have hget : (get : Run Tpm) (fresh [a]) = .ok (fresh [a]) (fresh [a]) := rfl
  have hfree : (fresh [a]).isInitialized = false := rfl
  have halg : (fresh [a]).algorithms = [a] := rfl
  rw [apply, initRegisters, bind_of_ok hget]
  simp only [hfree, Bool.false_eq_true, if_false]
  rw [bind_of_ok hget, halg, forM_cons_of_ok (initAlgorithm_eq hf hstart _)]
  rfl

/-- Replaying extends gives the hash chain over their digests. -/
theorem replay_extends (hf : a.function? = some f) {locality : Int} {start : Bytes}
    (hstart : EventLog.startValue f.digestSize locality = .ok start) (digests : List Bytes) :
    replay (digests.map (.extend 0 a)) locality a = .ok (EventLog.extendAll f start digests) := by
  obtain ⟨t, hinit, ht⟩ := apply_init_fresh hf hstart
  obtain ⟨t', hrest, ht'⟩ := applyAll_extends_of_holds hf digests ht
  have hrun : applyAll (.init locality :: digests.map (.extend 0 a)) (fresh [a]) = .ok () t' :=
    (bind_of_ok hinit _).trans hrest
  rw [replay, hrun]
  exact value_of_holds ht'

end Tpm
end MeasuredBoot
