import MeasuredBoot.Proofs.Reproduce.Soundness
import MeasuredBoot.Proofs.Tpm.Replay

/-!
# Searching legible measurements

The search for corrections reads the data behind a measurement if the measurement is one of the data with
the register. A record is legible if this can be told, and if the data can then be read: they begin with
the eight bytes of the register, and their digest is the one that was extended. Over legible measurements
no check of the search fails, so each of its searches is the pure search for the first answer.
-/
namespace MeasuredBoot.Pcr0

/-- An extend with the digest of data that begin with the bytes of the register. -/
def MeasuresRegister (r : CommandRecord) : Prop :=
  ∃ a data register digest, r.command = .extend 0 a digest ∧ dataOf r = .ok (data, register) ∧
    register.length = 8 ∧ data.take 8 = register ∧ hashBytes a data = .ok digest

/-- A record of which it can be told whether it is the measurement of the data with the register; if it
is, the data can be read. -/
def Legible (flows : FlowCatalog) (r : CommandRecord) : Prop :=
  isDataMeasurement flows r = .ok false ∨ isDataMeasurement flows r = .ok true ∧ MeasuresRegister r

def IsExtend (a : Algorithm) (c : Command) : Prop := ∃ digest, c = .extend 0 a digest

theorem isExtend_of_isMeasurement {a : Algorithm} {r : CommandRecord} (h : isMeasurement a r = true) :
    IsExtend a r.command := by
  unfold isMeasurement at h
  split at h
  · rename_i pcr b digest hc
    simp only [Bool.and_eq_true, decide_eq_true_eq] at h
    exact ⟨digest, by rw [hc, h.1, h.2]⟩
  · cases h

namespace Job

/-- A search whose replays cannot fail: its algorithm can be computed, and its locality is a byte. -/
structure Able (j : Job) (f : HashFunction) : Prop where
  hash : j.algorithm.function? = some f
  nonneg : 0 ≤ j.locality
  small : j.locality ≤ 255

def leads (j : Job) (cs : List Command) : Bool :=
  match j.isReached cs with
  | .ok reached => reached
  | .error _ => false

def orders (j : Job) (cs : List Command) : Option (List (Nat × Nat)) :=
  (Reorder.trials j.bounds.maxSwaps cs.length).find? fun s => j.leads (Reorder.exchangeAll cs s)

section Able
variable {j : Job} {f : HashFunction} (hj : j.Able f) {cs : List Command}
  (hcs : ∀ c ∈ cs, IsExtend j.algorithm c)
include hj hcs

theorem isReached_eq_leads : j.isReached cs = .ok (j.leads cs) := by
  obtain ⟨digests, rfl, -⟩ : ∃ digests : List Bytes, digests.map (.extend 0 j.algorithm) = cs ∧ _ :=
    exists_map_eq fun c hc => (hcs c hc).imp fun digest hdigest => ⟨trivial, hdigest.symm⟩
  have hstart : EventLog.startValue f.digestSize j.locality =
      .ok (Bytes.zeros (f.digestSize - 1) ++ [UInt8.ofNat j.locality.toNat]) := by
    have := hj.nonneg
    have := hj.small
    rw [EventLog.startValue, if_neg (by omega)]
  have hreplay := Tpm.replay_extends hj.hash hstart digests
  simp only [leads, isReached, hreplay, ok_bind]
  rfl

theorem swaps_eq_orders : j.swaps cs = .ok (j.orders cs) := by
  have hanswer : ∀ s ∈ Reorder.trials j.bounds.maxSwaps cs.length,
      Reorder.answer j.isReached cs s =
        .ok (if j.leads (Reorder.exchangeAll cs s) then some s else none) := by
    intro s hs
    have hmem : ∀ c ∈ Reorder.exchangeAll cs s, IsExtend j.algorithm c := fun c hc =>
      hcs c (Reorder.mem_of_mem_exchangeAll hc)
    rw [Reorder.answer, Reorder.exchangeAll_reverse (Reorder.mem_trials.mp hs).2.2,
      isReached_eq_leads hj hmem, map_ok]
  rw [swaps, Reorder.upTo_eq_firstAnswer, firstAnswer_eq_findSome? hanswer, orders,
    ← List.findSome?_guard]
  rfl

end Able

theorem isSome_orders_iff {j : Job} {cs : List Command} : (j.orders cs).isSome = true ↔
    ∃ s ∈ Reorder.trials j.bounds.maxSwaps cs.length, j.leads (Reorder.exchangeAll cs s) = true :=
  List.find?_isSome

theorem leads_of_orders_eq_none {j : Job} {cs : List Command} (h : j.orders cs = none)
    {s : List (Nat × Nat)} (hs : s ∈ Reorder.trials j.bounds.maxSwaps cs.length) :
    j.leads (Reorder.exchangeAll cs s) = false := by
  simpa using List.find?_eq_none.mp h s hs

theorem least_of_orders {j : Job} {cs : List Command} {s : List (Nat × Nat)}
    (h : j.orders cs = some s) :
    s ∈ Reorder.trials j.bounds.maxSwaps cs.length ∧ j.leads (Reorder.exchangeAll cs s) = true ∧
      ∀ t ∈ Reorder.trials j.bounds.maxSwaps cs.length,
        j.leads (Reorder.exchangeAll cs t) = true → s = t ∨ Reorder.Before s t :=
  exists_least_of_find? (Reorder.pairwise_trials _ _) h

end Job
end MeasuredBoot.Pcr0
