import Mathlib.Data.String.Basic
import Mathlib.Tactic.SplitIfs
import MeasuredBoot.Proofs.Reference.Content
import MeasuredBoot.Source.Resolve

/-!
# The bytes of the message registers

A snapshot keeps the registers of two names, those of the first name before those of the second one, and lays all
of them end to end, those too whose name is taken already. The source that measures them takes the first register
of each name from its place there. Sorting is stable, so the first register of a name stays the first one; a
register that is missing is read like one of no width; and where nothing lies between the two, both are read at
once. But every read writes out all registers, so one that is too wide for that keeps the others from being read.
-/
namespace MeasuredBoot

/-! ## Writing registers -/

namespace Register
variable {rs : List Register} {r : Register}

/-- True of a register whose value fits its width, if a byte string can be as long as that. -/
structure Writable (r : Register) : Prop where
  width : 0 ≤ r.size
  limit : r.size ≤ maxWidth - overhead
  value : 0 ≤ r.value
  fits : r.value < 256 ^ r.size.toNat

def named (name : String) (rs : List Register) : List Register := rs.filter (·.name = name)

theorem mem_named {name : String} : r ∈ named name rs ↔ r ∈ rs ∧ r.name = name := by
  simp [named]

/-- Registers of two names that are sorted by name are those of the smaller name before those of the other. -/
theorem eq_named_append_named {first second : String} (hlt : first < second)
    (hnames : ∀ r ∈ rs, r.name = first ∨ r.name = second)
    (hsorted : rs.Pairwise fun r s => r.name ≤ s.name) : rs = named first rs ++ named second rs := by
  induction rs with
  | nil => rfl
  | cons r rest ih =>
      obtain ⟨hle, hrest⟩ := List.pairwise_cons.mp hsorted
      have hboth := ih (fun s hs => hnames s (by simp [hs])) hrest
      rcases hnames r (by simp) with hfirst | hsecond
      · have hne : r.name ≠ second := hfirst.trans_ne hlt.ne
        rw [named, named, List.filter_cons_of_pos (by simpa using hfirst),
          List.filter_cons_of_neg (by simpa using hne), List.cons_append]
        exact congrArg (r :: ·) hboth
      · have hnone : named first rest = [] := by
          refine List.filter_eq_nil_iff.mpr fun s hs hname => ?_
          have hge := hle s hs
          rw [hsecond, of_decide_eq_true hname] at hge
          exact absurd hlt (not_lt.mpr hge)
        have hne : r.name ≠ first := hsecond.trans_ne hlt.ne'
        rw [hnone, List.nil_append] at hboth
        rw [named, List.filter_cons_of_neg (by simpa using hne), ← named, hnone, List.nil_append, named,
          List.filter_cons_of_pos (by simpa using hsecond)]
        exact congrArg (r :: ·) hboth

theorem name_trans (a b c : Register) (h : decide (a.name ≤ b.name) = true)
    (h' : decide (b.name ≤ c.name) = true) : decide (a.name ≤ c.name) = true := by
  rw [decide_eq_true_eq] at *
  exact le_trans h h'

theorem name_total (a b : Register) : (decide (a.name ≤ b.name) || decide (b.name ≤ a.name)) = true := by
  rw [Bool.or_eq_true, decide_eq_true_eq, decide_eq_true_eq]
  exact le_total _ _

theorem named_mergeSort (name : String) (rs : List Register) :
    named name (rs.mergeSort fun r s => r.name ≤ s.name) = named name rs := by
  have hequal : (named name rs).Pairwise fun r s => decide (r.name ≤ s.name) = true := by
    refine List.pairwise_of_forall_mem_list fun r hr s hs => ?_
    rw [(mem_named.mp hr).2, (mem_named.mp hs).2]
    exact decide_eq_true le_rfl
  have hsublist := List.sublist_mergeSort name_trans name_total hequal List.filter_sublist
  have hfiltered : (named name rs).Sublist (named name (rs.mergeSort fun r s => r.name ≤ s.name)) := by
    have hfiltered := hsublist.filter (·.name = name)
    simpa only [named, List.filter_filter, Bool.and_self] using hfiltered
  have hperm := (List.mergeSort_perm rs fun r s => decide (r.name ≤ s.name)).filter (·.name = name)
  exact (hfiltered.eq_of_length hperm.length_eq.symm).symm

end Register

namespace AmdRegisters
open Register
variable {a : AmdRegisters} {rs xs ys : List Register} {r : Register} {name : String}

theorem named_registers_ofList (rs : List Register) (hname : name = messageName37 ∨ name = messageName38) :
    named name (ofList rs).registers = named name rs := by
  rw [ofList, named_mergeSort, named, List.filter_filter]
  refine List.filter_congr fun r _ => ?_
  rcases hname with rfl | rfl <;> simp +contextual

theorem registers_ofList (rs : List Register) :
    (ofList rs).registers = named messageName37 rs ++ named messageName38 rs := by
  rw [← named_registers_ofList rs (.inl rfl), ← named_registers_ofList rs (.inr rfl)]
  refine eq_named_append_named (by decide) (fun r hr => ?_) ?_
  · have hfound := List.mem_filter.mp (List.mem_mergeSort.mp hr)
    simpa using hfound.2
  · exact (List.pairwise_mergeSort name_trans name_total _).imp of_decide_eq_true

/-! ## Places -/

end AmdRegisters

/-! ## Reading -/

namespace ByteRanges

end ByteRanges

def Bytes.slice (b : Bytes) (r : ByteRange) : Bytes := (b.drop r.offset.toNat).take r.length.toNat

namespace AmdRegisters
open Register
variable {a : AmdRegisters} {r : ByteRange}

end AmdRegisters

/-! ## The source -/

namespace Register

variable {rs : List Register} {name : String}

end Register

namespace Source
open Register

variable {s : State} {rs : List Register}

/-- A list of which every register that a snapshot keeps can be written. -/
def MessagesWritable (rs : List Register) : Prop :=
  ∀ r ∈ rs, r.name = messageName37 ∨ r.name = messageName38 → r.Writable

theorem MessagesWritable.named (h : MessagesWritable rs) {name : String}
    (hname : name = messageName37 ∨ name = messageName38) : ∀ r ∈ named name rs, r.Writable := by
  intro r hr
  obtain ⟨hmem, rfl⟩ := mem_named.mp hr
  exact h r hmem hname

theorem MessagesWritable.registers (h : MessagesWritable rs) :
    ∀ r ∈ (AmdRegisters.ofList rs).registers, r.Writable := by
  intro r hr
  rw [AmdRegisters.registers_ofList] at hr
  rcases List.mem_append.mp hr with hr | hr
  · exact h.named (.inl rfl) r hr
  · exact h.named (.inr rfl) r hr

/-- Five registers out of order, two of each name and one of another name that cannot be written. -/
def scattered : List Register := [
  ⟨messageName38, 8, 2, 0x0102⟩, ⟨"MP0_C2P_MSG_36", 0, -1, 7⟩, ⟨messageName37, 4, 1, 0xAA⟩,
  ⟨messageName38, 12, 1, 0xBB⟩, ⟨messageName37, 16, 3, 0xCC⟩]

end Source
end MeasuredBoot
