import MeasuredBoot.Proofs.Runs
import MeasuredBoot.Proofs.Search.Reorder
import MeasuredBoot.Reproduce.Pcr0

/-!
# Corrections by position and by index

The search for corrections works on the list of the measurements that are not disabled and exchanges
positions of that list; its answer names indexes of all measurements, and applying the answer to the log
works with these indexes only. Both mean the same: applying the answer gives the commands which the search
had replayed.
-/
namespace MeasuredBoot.Pcr0

def enabledIndexes (count : Nat) (disabled : Combination) : List Nat :=
  (List.range count).filter fun i => !disabled.contains i

def enabledOf (ms : List CommandRecord) (disabled : Combination) : List CommandRecord :=
  (enabledIndexes ms.length disabled).filterMap fun i => ms[i]?

/-- Pairs of positions as pairs of the indexes that stand there. -/
def orderSwaps (indexes : List Nat) (s : List (Nat × Nat)) : List OrderSwap :=
  s.map fun (i, k) => ⟨indexes.getD i 0, indexes.getD k 0⟩

/-- Corrections given by positions among the enabled measurements. -/
def corrections (a : Algorithm) (locality : Int) (count : Nat) (disabled : Combination)
    (v : Option Nat) (s : List (Nat × Nat)) : Corrections where
  algorithm := a
  locality := locality
  register := v.map Int.ofNat
  disabled := disabled.map Int.ofNat
  swaps := orderSwaps (enabledIndexes count disabled) s

/-- The commands of measurements, the first one with another register value if there is one. -/
def withValue (a : Algorithm) (rs : List CommandRecord) (v : Option Nat) :
    Except Fault (List Command) :=
  match v, rs with
  | some v, r :: _ => do
    let (data, _) ← dataOf r
    let digest ← RegisterSearch.dataDigest data (RegisterSearch.bytes v) a
    return .extend 0 a digest :: (rs.map CommandRecord.command).drop 1
  | _, _ => return rs.map CommandRecord.command

theorem withValue_none (a : Algorithm) (rs : List CommandRecord) :
    withValue a rs none = .ok (rs.map CommandRecord.command) := by
  cases rs <;> rfl

theorem withValue_some {a : Algorithm} {r : CommandRecord} {data register digest : Bytes} {v : Nat}
    (hdata : dataOf r = .ok (data, register))
    (hdigest : RegisterSearch.dataDigest data (RegisterSearch.bytes v) a = .ok digest)
    (rest : List CommandRecord) : withValue a (r :: rest) (some v) =
      .ok (.extend 0 a digest :: rest.map CommandRecord.command) := by
  simp only [withValue, hdata, ok_bind, hdigest]
  rfl

theorem exists_map_eq {α β : Type} {g : α → β} {Source : α → Prop} {ys : List β}
    (h : ∀ y ∈ ys, ∃ x, Source x ∧ g x = y) : ∃ xs : List α, xs.map g = ys ∧ ∀ x ∈ xs, Source x := by
  induction ys with
  | nil => exact ⟨[], rfl, by simp⟩
  | cons y rest ih =>
      obtain ⟨x, hx, rfl⟩ := h y (by simp)
      obtain ⟨xs, rfl, hxs⟩ := ih fun z hz => h z (by simp [hz])
      refine ⟨x :: xs, rfl, ?_⟩
      intro z hz
      rcases List.mem_cons.mp hz with rfl | hz
      · exact hx
      · exact hxs z hz

/-! ## Enabled measurements -/

theorem pairwise_enabledIndexes (count : Nat) (disabled : Combination) :
    (enabledIndexes count disabled).Pairwise (· < ·) := List.pairwise_lt_range.filter _

theorem mem_enabledIndexes {count : Nat} {disabled : Combination} {i : Nat} :
    i ∈ enabledIndexes count disabled ↔ i < count ∧ i ∉ disabled := by
  simp [enabledIndexes]

/-- The enabled measurements with their indexes, as applying corrections finds them. -/
def enabledPairs (ms : List CommandRecord) (disabled : Combination) : List (CommandRecord × Nat) :=
  ms.zipIdx.filter fun (_, i) => !(disabled.map Int.ofNat).contains (i : Int)

theorem snd_enabledPairs (ms : List CommandRecord) (disabled : Combination) :
    (enabledPairs ms disabled).map Prod.snd = enabledIndexes ms.length disabled := by
  have hp (i : Nat) : (disabled.map Int.ofNat).contains (i : Int) = disabled.contains i := by
    rw [Bool.eq_iff_iff]
    simp only [List.contains_iff_mem, List.mem_map]
    constructor
    · rintro ⟨k, hk, heq⟩
      rwa [← Int.ofNat_inj.mp heq]
    · exact fun hi => ⟨i, hi, rfl⟩
  have hcomp : (fun x : CommandRecord × Nat => !(disabled.map Int.ofNat).contains (x.2 : Int)) =
      (fun i => !disabled.contains i) ∘ Prod.snd := by
    funext x
    simp only [Function.comp_apply, hp]
  rw [enabledPairs, hcomp, ← List.filter_map, List.zipIdx_map_snd, enabledIndexes, List.range_eq_range']

theorem fst_enabledPairs (ms : List CommandRecord) (disabled : Combination) :
    (enabledPairs ms disabled).map Prod.fst = enabledOf ms disabled := by
  rw [enabledOf, ← snd_enabledPairs, List.filterMap_map, ← List.filterMap_eq_map]
  refine List.filterMap_congr fun x hx => ?_
  have hmem : x ∈ ms.zipIdx := (List.mem_filter.mp hx).1
  exact (List.mem_zipIdx_iff_getElem?.mp hmem).symm

theorem mem_of_mem_enabledOf {ms : List CommandRecord} {disabled : Combination} {r : CommandRecord}
    (h : r ∈ enabledOf ms disabled) : r ∈ ms := by
  obtain ⟨i, -, hi⟩ := List.mem_filterMap.mp h
  exact List.mem_of_getElem? hi

@[simp] theorem length_enabledOf (ms : List CommandRecord) (disabled : Combination) :
    (enabledOf ms disabled).length = (enabledIndexes ms.length disabled).length := by
  rw [← fst_enabledPairs, ← snd_enabledPairs, List.length_map, List.length_map]

theorem length_of_withValue {a : Algorithm} {rs : List CommandRecord} {v : Option Nat}
    {cs : List Command} (h : withValue a rs v = .ok cs) : cs.length = rs.length := by
  unfold withValue at h
  split at h
  · obtain ⟨found, -, h⟩ := bind_eq_ok_iff.mp h
    obtain ⟨digest, -, h⟩ := bind_eq_ok_iff.mp h
    cases h
    simp
  · cases h
    simp

/-! ## Applying corrections -/

theorem positionOf_getD {indexes : List Nat} (hn : indexes.Nodup) {i : Nat} (hi : i < indexes.length) :
    positionOf (indexes.map Int.ofNat) (Int.ofNat (indexes.getD i 0)) = .ok i := by
  have hfind : (indexes.map Int.ofNat).idxOf? (Int.ofNat (indexes.getD i 0)) = some i := by
    rw [List.idxOf?_eq_some_iff]
    refine ⟨by simpa using hi, by simp [hi], fun j hj heq => ?_⟩
    have hjl : j < indexes.length := Nat.lt_trans hj hi
    have hij : indexes[j] = indexes[i] := by
      rw [List.getElem_map, List.getD_eq_getElem?_getD, List.getElem?_eq_getElem hi] at heq
      exact Int.ofNat_inj.mp heq
    exact Nat.ne_of_lt hj ((List.Nodup.getElem_inj_iff hn).mp hij)
  rw [positionOf, hfind]

theorem foldlM_orderSwaps {indexes : List Nat} (hn : indexes.Nodup) {s : List (Nat × Nat)}
    (hs : ∀ p ∈ s, p.1 < indexes.length ∧ p.2 < indexes.length) (cs : List Command) :
    (orderSwaps indexes s).foldlM (fun cs s => do
      return Reorder.exchange cs (← positionOf (indexes.map Int.ofNat) s.first)
        (← positionOf (indexes.map Int.ofNat) s.second)) cs = .ok (Reorder.exchangeAll cs s) := by
  induction s generalizing cs with
  | nil => rfl
  | cons p s ih =>
      have hp := hs p (by simp)
      rw [orderSwaps, List.map_cons, List.foldlM_cons]
      simp only [← Int.ofNat_eq_natCast, positionOf_getD hn hp.1, positionOf_getD hn hp.2, ok_bind,
        pure_bind]
      exact ih (fun q hq => hs q (by simp [hq])) _

/-- Applying corrections gives the commands with the register value, exchanged position by position. -/
theorem correct_corrections (a : Algorithm) (locality : Int) (records : List CommandRecord)
    (disabled : Combination) (v : Option Nat) {s : List (Nat × Nat)}
    (hs : ∀ p ∈ s, p.1 < (enabledOf (measurements records a) disabled).length ∧
      p.2 < (enabledOf (measurements records a) disabled).length) :
    correct (corrections a locality (measurements records a).length disabled v s) records =
      (fun cs => .init locality :: Reorder.exchangeAll cs s) <$>
        withValue a (enabledOf (measurements records a) disabled) v := by
  have hn : (enabledIndexes (measurements records a).length disabled).Nodup :=
    (pairwise_enabledIndexes _ _).imp Nat.ne_of_lt
  have hindexes : (enabledPairs (measurements records a) disabled).map (fun x => (x.2 : Int)) =
      (enabledIndexes (measurements records a).length disabled).map Int.ofNat := by
    rw [← snd_enabledPairs, List.map_map]
    rfl
  have hcommands : (enabledPairs (measurements records a) disabled).map (fun x => x.1.command) =
      (enabledOf (measurements records a) disabled).map CommandRecord.command := by
    rw [← fst_enabledPairs, List.map_map]
    rfl
  have hfold := foldlM_orderSwaps hn (by simpa using hs)
  have hpairs : ((measurements records a).zipIdx.filter fun x =>
      !(disabled.map Int.ofNat).contains (x.2 : Int)) = enabledPairs (measurements records a) disabled := rfl
  unfold correct corrections withValue
  simp only [hpairs, hindexes, hcommands, hfold, pure_bind]
  rw [← fst_enabledPairs]
  cases v with
  | none => rfl
  | some v =>
      cases enabledPairs (measurements records a) disabled with
      | nil => rfl
      | cons x rest =>
          simp only [Option.map_some, List.map_cons]
          cases dataOf x.1 with
          | error f => rfl
          | ok found =>
              simp only [ok_bind]
              cases RegisterSearch.dataDigest found.1 (RegisterSearch.bytes (Int.ofNat v)) a <;> rfl

end MeasuredBoot.Pcr0
