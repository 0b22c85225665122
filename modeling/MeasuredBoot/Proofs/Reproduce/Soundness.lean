import MeasuredBoot.Proofs.Reproduce.Consistency
import MeasuredBoot.Proofs.Reproduce.Encoding

/-!
# Answers hold

Whatever the log of commands, the expected digest and the bounds are: what the search answers, once more
applied to the log, leads a fresh TPM to the expected digest. The search tries orders of the enabled
measurements and keeps the first one that replays to the digest; the exchanges of its answer are disjoint,
so making them in the order in which they are listed gives the same commands.
-/
namespace MeasuredBoot.Pcr0

/-- Confirming corrections replays the commands which the search has replayed. -/
theorem isConfirmed_corrections (j : Job) (records : List CommandRecord) (disabled : Combination)
    (v : Option Nat) {s : List (Nat × Nat)}
    (hs : ∀ p ∈ s, p.1 < (enabledOf (measurements records j.algorithm) disabled).length ∧
      p.2 < (enabledOf (measurements records j.algorithm) disabled).length) :
    isConfirmed (corrections j.algorithm j.locality (measurements records j.algorithm).length disabled v s)
        records j.expected =
      withValue j.algorithm (enabledOf (measurements records j.algorithm) disabled) v >>= fun cs =>
        j.isReached (Reorder.exchangeAll cs s) := by
  rw [isConfirmed, correct_corrections j.algorithm j.locality records disabled v hs, bind_map_left]
  rfl

namespace Job

/-- The exchanges that are found are disjoint, and lead to the expected digest in either order. -/
theorem swaps_sound {j : Job} {cs : List Command} {s : List (Nat × Nat)}
    (h : j.swaps cs = .ok (some s)) :
    s ∈ Reorder.trials j.bounds.maxSwaps cs.length ∧
      j.isReached (Reorder.exchangeAll cs s) = .ok true := by
  rw [swaps, Reorder.upTo_eq_firstAnswer] at h
  obtain ⟨t, ht, hanswer⟩ := exists_of_firstAnswer_some h
  rw [Reorder.answer] at hanswer
  cases hreached : j.isReached (Reorder.exchangeAll cs t.reverse) with
  | error f => rw [hreached] at hanswer; cases hanswer
  | ok reached =>
      rw [hreached] at hanswer
      cases reached with
      | false => cases hanswer
      | true =>
          cases hanswer
          rw [Reorder.exchangeAll_reverse (Reorder.mem_trials.mp ht).2.2] at hreached
          exact ⟨ht, hreached⟩

/-- Exchanges and a register value with which measurements lead to the expected digest. -/
def Reaches (j : Job) (rs : List CommandRecord) (s : List (Nat × Nat)) (v : Option Nat) : Prop :=
  (∀ p ∈ s, p.1 < rs.length ∧ p.2 < rs.length) ∧
    (withValue j.algorithm rs v >>= fun cs => j.isReached (Reorder.exchangeAll cs s)) = .ok true

theorem reaches_of_swaps {j : Job} {rs : List CommandRecord} {cs : List Command}
    {s : List (Nat × Nat)} {v : Option Nat} (hcs : withValue j.algorithm rs v = .ok cs)
    (h : j.swaps cs = .ok (some s)) : j.Reaches rs s v := by
  obtain ⟨htrial, hreached⟩ := swaps_sound h
  have hmem := (Reorder.mem_trials.mp htrial).2.1
  rw [length_of_withValue hcs] at hmem
  refine ⟨fun p hp => ?_, by rw [hcs]; exact hreached⟩
  have := hmem p hp
  omega

theorem withRegister_eq_withValue {j : Job} {r : CommandRecord} {rest : List CommandRecord}
    {data register : Bytes} (h : dataOf r = .ok (data, register)) (v : Nat) :
    j.withRegister data (RegisterSearch.bytes v) ((r :: rest).map CommandRecord.command) =
      withValue j.algorithm (r :: rest) (some v) := by
  simp only [withRegister, withValue, h, ok_bind]

theorem registerData_eq_some {j : Job} {r : CommandRecord} {found : Bytes × Bytes}
    (h : j.registerData r = .ok (some found)) : dataOf r = .ok found := by
  unfold registerData at h
  obtain ⟨isData, -, h⟩ := bind_eq_ok_iff.mp h
  split at h
  · cases hdata : dataOf r with
    | error f => rw [hdata] at h; cases h
    | ok g => rw [hdata] at h; cases h; rfl
  · cases h

/-! ### The cases of a verification -/

/-- The check of a register value: with its bytes, some order leads to the expected digest. -/
def checkRegister (j : Job) (data : Bytes) (cs : List Command) (candidate : Bytes) : Except Fault Bool := do
  return (← j.swaps (← j.withRegister data candidate cs)).isSome

/-- The search through the orders of unchanged commands. -/
def verifyUnchanged (j : Job) (cs : List Command) :
    Journal.Run (Option (List (Nat × Nat) × Option Nat)) := do
  return (← attempt (j.swaps cs)).map fun s => (s, none)

/-- The search through the register values of the first command, and the orders for each of them. -/
def verifyRegister (j : Job) (cs : List Command) (data register : Bytes) :
    Journal.Run (Option (List (Nat × Nat) × Option Nat)) := do
  let r := RegisterSearch.run register (j.checkRegister data cs) j.bounds.toRegisterBounds
  Journal.append r.journal
  match ← attempt r.outcome with
  | none => return none
  | some v =>
    let corrected ← attempt (j.withRegister data (RegisterSearch.bytes v) cs)
    return some ((← attempt (j.swaps corrected)).getD [], some v)

theorem verify_cons (j : Job) (r : CommandRecord) (rest : List CommandRecord) :
    j.verify (r :: rest) = attempt (j.registerData r) >>= fun first =>
      match first with
      | none => j.verifyUnchanged ((r :: rest).map CommandRecord.command)
      | some (data, register) =>
        j.verifyRegister ((r :: rest).map CommandRecord.command) data register := rfl

theorem consistent_checkRegister (j : Job) (data : Bytes) (cs : List Command) (candidate : Bytes) :
    Consistent (j.checkRegister data cs candidate) :=
  (j.consistent_withRegister data candidate cs).bind fun changed _ =>
    (j.consistent_swaps changed).bind fun _ _ => .ok _

theorem withRegister_of_check {j : Job} {data candidate : Bytes} {cs : List Command}
    (h : j.checkRegister data cs candidate = .ok true) :
    ∃ changed s, j.withRegister data candidate cs = .ok changed ∧ j.swaps changed = .ok (some s) := by
  obtain ⟨changed, hchanged, h⟩ := bind_eq_ok_iff.mp h
  obtain ⟨found, hfound, h⟩ := bind_eq_ok_iff.mp h
  cases found with
  | none => cases h
  | some s => exact ⟨changed, s, hchanged, hfound⟩

abbrev Found (j : Job) (rs : List CommandRecord) (found : Option (List (Nat × Nat) × Option Nat)) : Prop :=
  ∀ x, found = some x → j.Reaches rs x.1 x.2

theorem verifyUnchanged_ensures (j : Job) (rs : List CommandRecord) :
    Ensures (j.verifyUnchanged (rs.map CommandRecord.command)) (j.Found rs) Fault.Consistent := by
  have hcs := withValue_none j.algorithm rs
  refine (Ensures.attempt (j.consistent_swaps _) fun found hfound => hfound).bind fun found hfound => ?_
  refine .pure fun x hx => ?_
  cases found with
  | none => cases hx
  | some s =>
      cases hx
      exact reaches_of_swaps hcs hfound

theorem verifyRegister_ensures (j : Job) {r : CommandRecord} {rest : List CommandRecord}
    {data register : Bytes} (h : dataOf r = .ok (data, register)) :
    Ensures (j.verifyRegister ((r :: rest).map CommandRecord.command) data register)
      (j.Found (r :: rest)) Fault.Consistent := by
  refine (Ensures.modify _).bind fun _ _ => ?_
  have hrun := RegisterSearch.consistent_run
    (j.consistent_checkRegister data ((r :: rest).map CommandRecord.command)) register
    j.bounds.toRegisterBounds
  refine (Ensures.attempt hrun fun found hfound => hfound).bind fun found hfound => ?_
  cases found with
  | none =>
      refine .pure ?_
      rintro x ⟨⟩
  | some v =>
      obtain ⟨changed, s, hchanged, hs⟩ := withRegister_of_check (RegisterSearch.run_accepted hfound)
      simp only [hchanged, attempt_ok, pure_bind, hs]
      refine .pure ?_
      rintro x ⟨⟩
      rw [withRegister_eq_withValue h] at hchanged
      exact reaches_of_swaps hchanged hs

theorem verify_ensures (j : Job) (rs : List CommandRecord) :
    Ensures (j.verify rs) (j.Found rs) Fault.Consistent := by
  cases rs with
  | nil => exact j.verifyUnchanged_ensures []
  | cons r rest =>
      rw [verify_cons]
      refine (Ensures.attempt (j.consistent_registerData r) fun found hfound => hfound).bind
        fun found hfound => ?_
      cases found with
      | none => exact j.verifyUnchanged_ensures (r :: rest)
      | some x => exact j.verifyRegister_ensures (registerData_eq_some hfound)

/-- Corrections are for one algorithm and, once more applied, lead to a digest. -/
abbrev Holds (j : Job) (records : List CommandRecord) (c : Corrections) : Prop :=
  c.algorithm = j.algorithm ∧ isConfirmed c records j.expected = .ok true

theorem tryDisabled_ensures (j : Job) (records : List CommandRecord) (disabled : Combination) :
    Ensures (j.tryDisabled (measurements records j.algorithm) disabled)
      (fun found => ∀ c, found = some c → j.Holds records c) Fault.Consistent := by
  refine (j.verify_ensures _).bind fun found hfound => ?_
  cases found with
  | none =>
      refine .pure ?_
      rintro c ⟨⟩
  | some x =>
      refine .pure ?_
      rintro c ⟨⟩
      obtain ⟨hs, hreached⟩ := hfound x rfl
      exact ⟨rfl, (isConfirmed_corrections j records disabled x.2 hs).trans hreached⟩

/-- What the search for one locality answers is confirmed. -/
theorem run_ensures (j : Job) (records : List CommandRecord) :
    Ensures (j.run (measurements records j.algorithm))
      (fun found => ∀ c, found = some c → j.Holds records c) Fault.Consistent := by
  refine .firstAnswer fun count _ => ?_
  rw [Combination.first_eq_firstAnswer]
  exact .firstAnswer fun disabled _ => j.tryDisabled_ensures records disabled

end Job

section Reproduce
variable (flows : FlowCatalog) (records : List CommandRecord) (a : Algorithm) (expected : Bytes)
  (bounds : Pcr0Bounds)

/-- Corrections with which a fresh TPM ends with the expected digest. -/
def Reproduces (records : List CommandRecord) (a : Algorithm) (expected : Bytes) (c : Corrections) :
    Prop :=
  ∃ cs t, correct c records = .ok cs ∧ Tpm.applyAll cs (Tpm.fresh [a]) = .ok () t ∧
    t.value 0 a = .ok expected

theorem isConfirmed_iff_reproduces {c : Corrections} (ha : c.algorithm = a) :
    isConfirmed c records expected = .ok true ↔ Reproduces records a expected c := by
  constructor
  · intro h
    obtain ⟨cs, hcs, h⟩ := bind_eq_ok_iff.mp h
    obtain ⟨value, hvalue, h⟩ := bind_eq_ok_iff.mp h
    obtain rfl : value = expected := eq_of_beq (Except.ok.inj h)
    rw [valueAfter, ha] at hvalue
    split at hvalue
    · rename_i t ht
      exact ⟨cs, t, hcs, ht, hvalue⟩
    · cases hvalue
  · rintro ⟨cs, t, hcs, ht, hvalue⟩
    have hafter : valueAfter cs c.algorithm = .ok expected := by
      rw [valueAfter, ha, ht]
      exact hvalue
    rw [isConfirmed, hcs, ok_bind, hafter, ok_bind]
    exact congrArg Except.ok (beq_self_eq_true expected)

theorem tryLocality_ensures (locality : Int) :
    Ensures (tryLocality flows records a expected bounds locality)
      (fun found => ∀ c, found = some c → Reproduces records a expected c) Fault.Consistent := by
  refine (Job.run_ensures ⟨flows, a, expected, locality, bounds⟩ records).bind fun found hfound => ?_
  cases found with
  | none =>
      refine (Ensures.modify _).bind fun _ _ => .pure ?_
      rintro c ⟨⟩
  | some c =>
      obtain ⟨ha, hc⟩ := hfound c rfl
      simp only [hc, attempt_ok, pure_bind]
      refine (Ensures.modify _).bind fun _ _ => .pure ?_
      rintro d ⟨⟩
      exact (isConfirmed_iff_reproduces records a expected ha).mp hc

theorem reproduce_ensures :
    Ensures (reproduce flows records a expected bounds)
      (fun found => ∀ c, found = some c → Reproduces records a expected c) Fault.Consistent := by
  refine (Ensures.modify _).bind fun _ _ => ?_
  refine (Ensures.firstAnswer fun locality _ =>
    tryLocality_ensures flows records a expected bounds locality).bind fun found hfound => ?_
  cases found with
  | none =>
      refine (Ensures.modify _).bind fun _ _ => .pure ?_
      rintro c ⟨⟩
  | some c => exact .pure hfound

/-- What the search for a locality answers is confirmed when it is applied to the log once more; so
whatever the whole search answers leads a fresh TPM to the expected digest, and the search never blames
itself for an answer that does not hold. -/
theorem reproduce_sound :
    (∀ locality j c j', Job.run ⟨flows, a, expected, locality, bounds⟩ (measurements records a) j =
        .ok (some c) j' → isConfirmed c records expected = .ok true) ∧
      ∀ j, match reproduce flows records a expected bounds j with
        | .ok (some c) _ => Reproduces records a expected c
        | .ok none _ => True
        | .error f _ => ∀ result digest, f ≠ .search (.inconsistent result digest) := by
  constructor
  · intro locality j c j' hrun
    have h := Job.run_ensures ⟨flows, a, expected, locality, bounds⟩ records j
    rw [hrun] at h
    exact (h c rfl).2
  · intro j
    have h := reproduce_ensures flows records a expected bounds j
    cases hcase : reproduce flows records a expected bounds j with
    | ok found j' =>
        rw [hcase] at h
        cases found with
        | none => trivial
        | some c => exact h c rfl
    | error f j' =>
        rw [hcase] at h
        rintro result digest rfl
        exact h

end Reproduce
end MeasuredBoot.Pcr0
