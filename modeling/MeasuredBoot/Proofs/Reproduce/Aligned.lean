import MeasuredBoot.Proofs.Reproduce.Alignments
import MeasuredBoot.Reproduce.Reconciliation

/-!
# The pairs of aligned logs

An alignment puts both lists side by side as a whole, in order, and asks for nothing but positions. So traced entries
may be aligned by their entries alone. Equal entries may differ in what was traced of them, but along the pairs each
entry meets its own trace, for the traces that are still to be met are always those of the entries that are left.
-/
namespace MeasuredBoot

namespace Alignment

section
variable {α β : Type}

/-- All of both lists stands in the pairs, in order, and no pair is empty. -/
theorem pairFrom_whole (a : Alignment) (i : Nat) (es : List β) (k : Nat) (cs : List α) :
    (pairFrom a i es k cs).filterMap Prod.fst = cs ∧ (pairFrom a i es k cs).filterMap Prod.snd = es ∧
      (none, none) ∉ pairFrom a i es k cs := by
  fun_induction pairFrom a i es k cs with
  | case1 i k => simp
  | case2 i k c cs ih => simpa using ih
  | case3 i e es k ih => simpa using ih
  | case4 i e es k c cs hi ih => simpa using ih
  | case5 i e es k c cs hi hk ih => simpa using ih
  | case6 i e es k c cs hi hk ih => simpa using ih

end

theorem pairFrom_nil {α β : Type} {es : List β} {cs : List α} (h : es.length = cs.length) (cost i k : Nat) :
    pairFrom ⟨[], [], cost⟩ i es k cs = (cs.zip es).map fun p => (some p.1, some p.2) := by
  induction es generalizing cs i k with
  | nil =>
      obtain rfl := List.length_eq_zero_iff.mp h.symm
      rw [pairFrom]
      rfl
  | cons e rest ih =>
      cases cs with
      | nil => cases h
      | cons c more =>
          rw [pairFrom, ih (Nat.succ.inj h)]
          rfl

end Alignment

namespace Reconciliation

theorem restore_pairFrom (best : Alignment) (i : Nat) (es : List ReportedEvent) (k : Nat)
    (traced : List TracedEntry) (number : Nat) :
    restore (traced.zipIdx number) (best.pairFrom i es k ((traced.map TracedEntry.entry).zipIdx number)) =
      best.pairFrom i es k traced := by
  fun_induction Alignment.pairFrom best i es k traced generalizing number with
  | case1 i k => simp [Alignment.pairFrom, restore]
  | case2 i k t more ih => simp [Alignment.pairFrom, restore, ih]
  | case3 i e es k ih => simpa [Alignment.pairFrom, restore] using ih number
  | case4 i e es k t more hi ih =>
      rw [← ih number, List.map_cons, List.zipIdx_cons, List.zipIdx_cons, Alignment.pairFrom, if_pos hi, restore]
  | case5 i e es k t more hi hk ih =>
      rw [← ih (number + 1), List.map_cons, List.zipIdx_cons, List.zipIdx_cons, Alignment.pairFrom, if_neg hi,
        if_pos hk, restore, if_pos rfl]
  | case6 i e es k t more hi hk ih =>
      rw [← ih (number + 1), List.map_cons, List.zipIdx_cons, List.zipIdx_cons, Alignment.pairFrom, if_neg hi,
        if_neg hk, restore, if_pos rfl]

/-- Aligned by their entries alone, traced entries are paired as if they were aligned themselves. -/
theorem restore_pairs (best : Alignment) (expected : ReportedLog) (traced : List TracedEntry) :
    restore traced.zipIdx (best.pairs expected (traced.map TracedEntry.entry).zipIdx) =
      best.pairs expected traced :=
  restore_pairFrom best 0 expected 0 traced 0

end Reconciliation
end MeasuredBoot
