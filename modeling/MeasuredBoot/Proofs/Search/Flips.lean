import Mathlib.Data.List.Sort
import MeasuredBoot.Bytes.LittleEndian
import MeasuredBoot.Search.Combination

/-!
# The bits of byte strings

A byte string is read as a little-endian number, so the bits of the string are those of the number.
Flipping the bits of a combination changes exactly these bits, and any two strings of one length differ by
exactly one combination of bits.
-/
namespace MeasuredBoot.Combination

/-- The bits below a bound in which two numbers differ, in increasing order. -/
def differing (bound x y : Nat) : Combination :=
  (List.range bound).filter fun i => x.testBit i != y.testBit i

theorem mem_differing {bound x y i : Nat} :
    i ∈ differing bound x y ↔ i < bound ∧ x.testBit i ≠ y.testBit i := by
  simp [differing]

theorem pairwise_differing (bound x y : Nat) : (differing bound x y).Pairwise (· < ·) :=
  List.pairwise_lt_range.filter _

theorem testBit_toNatLE_cons (x : UInt8) (rest : Bytes) (j : Nat) :
    (Bytes.toNatLE (x :: rest)).testBit j =
      if j < 8 then x.toNat.testBit j else rest.toNatLE.testBit (j - 8) := by
  have hx : x.toNat < 2 ^ 8 := x.toNat_lt
  rw [Bytes.toNatLE, Nat.add_comm, show 256 = 2 ^ 8 from rfl, Nat.testBit_two_pow_mul_add _ hx]

theorem toNat_xor_shiftLeft (x : UInt8) {i : Nat} (h : i < 8) :
    (x ^^^ (1 <<< UInt8.ofNat i)).toNat = x.toNat ^^^ 2 ^ i := by
  have hshift : ∀ i < 8, ((1 : UInt8) <<< UInt8.ofNat i).toNat = 2 ^ i := by decide
  rw [UInt8.toNat_xor, hshift i h]

@[simp] theorem length_flipBit (b : Bytes) (i : Nat) : (flipBit b i).length = b.length := by
  simp [flipBit]

@[simp] theorem length_flipAll (b : Bytes) (c : Combination) : (flipAll b c).length = b.length := by
  induction c generalizing b with
  | nil => rfl
  | cons i rest ih => exact (ih _).trans (length_flipBit b i)

theorem testBit_flipBit {b : Bytes} {i : Nat} (h : i < 8 * b.length) (j : Nat) :
    (flipBit b i).toNatLE.testBit j = (b.toNatLE.testBit j ^^ decide (i = j)) := by
  induction b generalizing i j with
  | nil => simp at h
  | cons x rest ih =>
      by_cases hi : i < 8
      · have hflip : flipBit (x :: rest) i = (x ^^^ (1 <<< UInt8.ofNat i)) :: rest := by
          simp [flipBit, Nat.div_eq_of_lt hi, Nat.mod_eq_of_lt hi]
        rw [hflip, testBit_toNatLE_cons, testBit_toNatLE_cons, toNat_xor_shiftLeft x hi]
        split
        · rw [Nat.testBit_xor, Nat.testBit_two_pow]
        · have hne : i ≠ j := by omega
          simp [hne]
      · have hdiv : i / 8 = (i - 8) / 8 + 1 := by omega
        have hmod : i % 8 = (i - 8) % 8 := by omega
        have hflip : flipBit (x :: rest) i = x :: flipBit rest (i - 8) := by
          rw [flipBit, flipBit, hdiv, hmod, List.modify_succ_cons]
        have hlt : i - 8 < 8 * rest.length := by
          rw [List.length_cons] at h
          omega
        rw [hflip, testBit_toNatLE_cons, testBit_toNatLE_cons, ih hlt]
        split
        · have hne : i ≠ j := by omega
          simp [hne]
        · have heq : (i - 8 = j - 8) = (i = j) := by
            rw [eq_iff_iff]
            omega
          simp only [heq]

theorem testBit_flipAll {b : Bytes} {c : Combination} (hc : c.Nodup) (h : ∀ i ∈ c, i < 8 * b.length)
    (j : Nat) : (flipAll b c).toNatLE.testBit j = (b.toNatLE.testBit j ^^ decide (j ∈ c)) := by
  induction c generalizing b with
  | nil => simp [flipAll]
  | cons i rest ih =>
      obtain ⟨hi, hrest⟩ := List.nodup_cons.mp hc
      have hstep : flipAll b (i :: rest) = flipAll (flipBit b i) rest := rfl
      rw [hstep, ih hrest (fun k hk => by simpa using h k (by simp [hk])), testBit_flipBit (h i (by simp))]
      by_cases hij : i = j
      · subst hij
        simp [hi]
      · have hji : j ≠ i := Ne.symm hij
        simp [hij, hji]

theorem differing_flipAll {b : Bytes} {c : Combination} (hc : c.Pairwise (· < ·))
    (h : ∀ i ∈ c, i < 8 * b.length) :
    differing (8 * b.length) b.toNatLE (flipAll b c).toNatLE = c := by
  have hn : c.Nodup := hc.imp Nat.ne_of_lt
  refine (pairwise_differing _ _ _).eq_of_mem_iff hc fun i => ?_
  rw [mem_differing, testBit_flipAll hn h]
  constructor
  · rintro ⟨-, hne⟩
    by_contra hi
    simp [hi] at hne
  · intro hi
    exact ⟨h i hi, by simp [hi]⟩

theorem toNatLE_flipAll_differing {b : Bytes} {v : Nat} (hv : v < 256 ^ b.length) :
    (flipAll b (differing (8 * b.length) b.toNatLE v)).toNatLE = v := by
  have hn : (differing (8 * b.length) b.toNatLE v).Nodup :=
    (pairwise_differing _ _ _).imp Nat.ne_of_lt
  have hpow : 256 ^ b.length = 2 ^ (8 * b.length) := by
    rw [Nat.pow_mul]
  apply Nat.eq_of_testBit_eq
  intro j
  rw [testBit_flipAll hn fun i hi => (mem_differing.mp hi).1]
  by_cases hj : j < 8 * b.length
  · have hmem : j ∈ differing (8 * b.length) b.toNatLE v ↔ b.toNatLE.testBit j ≠ v.testBit j := by
      simp [mem_differing, hj]
    cases hb : b.toNatLE.testBit j <;> cases hw : v.testBit j <;> simp [hmem, hb, hw]
  · have hb : b.toNatLE.testBit j = false := by
      refine Nat.testBit_lt_two_pow (Nat.lt_of_lt_of_le (Bytes.toNatLE_lt b) ?_)
      rw [hpow]
      exact Nat.pow_le_pow_right (by omega) (by omega)
    have hw : v.testBit j = false := by
      refine Nat.testBit_lt_two_pow (Nat.lt_of_lt_of_le hv ?_)
      rw [hpow]
      exact Nat.pow_le_pow_right (by omega) (by omega)
    simp [hb, hw, mem_differing, hj]

/-! ## Flipping back -/

theorem flipBit_flipBit (b : Bytes) (i : Nat) : flipBit (flipBit b i) i = b := by
  have hmask : (fun x : UInt8 => x ^^^ (1 <<< UInt8.ofNat (i % 8))) ∘
      (fun x : UInt8 => x ^^^ (1 <<< UInt8.ofNat (i % 8))) = id := by
    funext x
    simp only [Function.comp_apply, UInt8.xor_assoc, UInt8.xor_self, UInt8.xor_zero, id_eq]
  rw [flipBit, flipBit, List.modify_modify_eq, hmask, List.modify_id]

theorem flipBit_comm (b : Bytes) (i j : Nat) : flipBit (flipBit b i) j = flipBit (flipBit b j) i := by
  by_cases h : i / 8 = j / 8
  · have hmask : (fun x : UInt8 => x ^^^ (1 <<< UInt8.ofNat (j % 8))) ∘
        (fun x : UInt8 => x ^^^ (1 <<< UInt8.ofNat (i % 8))) =
          (fun x : UInt8 => x ^^^ (1 <<< UInt8.ofNat (i % 8))) ∘
            (fun x : UInt8 => x ^^^ (1 <<< UInt8.ofNat (j % 8))) := by
      funext x
      simp only [Function.comp_apply, UInt8.xor_assoc]
      congr 1
      exact UInt8.xor_comm _ _
    simp only [flipBit, h, List.modify_modify_eq, hmask]
  · exact List.modify_modify_ne _ _ b h

theorem flipBit_flipAll (b : Bytes) (c : Combination) (i : Nat) :
    flipBit (flipAll b c) i = flipAll (flipBit b i) c := by
  induction c generalizing b with
  | nil => rfl
  | cons j rest ih =>
      have hstep : flipAll b (j :: rest) = flipAll (flipBit b j) rest := rfl
      rw [hstep, ih, flipBit_comm]
      rfl

/-- Flipping the bits of a combination twice restores the data. -/
theorem flipAll_flipAll (b : Bytes) (c : Combination) : flipAll (flipAll b c) c = b := by
  induction c generalizing b with
  | nil => rfl
  | cons i rest ih =>
      calc flipAll (flipAll b (i :: rest)) (i :: rest)
          = flipAll (flipBit (flipAll (flipBit b i) rest) i) rest := rfl
        _ = flipAll (flipAll (flipBit (flipBit b i) i) rest) rest := by rw [flipBit_flipAll]
        _ = b := by rw [flipBit_flipBit, ih]

end MeasuredBoot.Combination
