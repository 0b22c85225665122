import Mathlib.Data.List.Lex
import Mathlib.Data.List.Sort
import Mathlib.Data.Prod.Lex
import Mathlib.Data.String.Basic
import MeasuredBoot.Boot.Validation
import MeasuredBoot.Proofs.Source.Faults

/-!
# Reports that do not depend on the order of the checks

A report joins what several checks find and orders it by step, place, kind and message. That is a linear order
of these four, and together they determine the text of a finding, so two reports of the same findings read the
same although findings that rank equally may stand in either order in them. The checks of this library find
what they find in every log and never fail: where references or executable files do not resolve, this is a
finding.
-/
namespace MeasuredBoot

/-! ## The order of findings -/

namespace Finding

def rank (f : Finding) : ℕ ×ₗ List String := toLex (f.step, f.key)

theorem keyPrecedes_iff {xs ys : List String} : keyPrecedes xs ys = true ↔ xs ≤ ys := by
  induction xs generalizing ys with
  | nil => exact iff_of_true (by simp only [keyPrecedes]) (not_lt.mp (List.not_lt_nil ys))
  | cons x xs ih =>
      cases ys with
      | nil => exact iff_of_false (by simp [keyPrecedes]) (not_le.mpr (List.nil_lt_cons x xs))
      | cons y ys =>
          have hcons : x :: xs ≤ y :: ys ↔ x < y ∨ x = y ∧ xs ≤ ys :=
            not_lt.symm.trans (List.cons_le_cons_iff.trans (or_congr_right (and_congr_right' not_lt)))
          rw [hcons, ← ih, keyPrecedes, Bool.or_eq_true, Bool.and_eq_true, decide_eq_true_eq,
            decide_eq_true_eq]

theorem precedes_iff {f g : Finding} : precedes f g = true ↔ f.rank ≤ g.rank := by
  rw [rank, rank, Prod.Lex.toLex_le_toLex]
  simp [precedes, keyPrecedes_iff]

theorem text_eq_of_rank {f g : Finding} (h : f.rank = g.rank) : f.text = g.text := by
  obtain ⟨hstep, hkey⟩ := Prod.mk.inj (toLex_inj.mp h)
  simp only [key, List.cons.injEq, and_true] at hkey
  obtain ⟨hplace, -, hmessage⟩ := hkey
  rw [text, text, StepIssue.text, StepIssue.text, hstep, hplace, hmessage]

theorem pairwise_rank_mergeSort (fs : List Finding) :
    ((fs.mergeSort precedes).map rank).Pairwise (· ≤ ·) := by
  have htrans : ∀ f g h : Finding, precedes f g = true → precedes g h = true → precedes f h = true := by
    intro f g h
    simp only [precedes_iff]
    exact le_trans
  have htotal : ∀ f g : Finding, (precedes f g || precedes g f) = true := by
    intro f g
    rw [Bool.or_eq_true, precedes_iff, precedes_iff]
    exact le_total _ _
  rw [List.pairwise_map]
  exact (List.pairwise_mergeSort htrans htotal fs).imp precedes_iff.mp

theorem map_rank_mergeSort_of_perm {fs gs : List Finding} (h : fs.Perm gs) :
    (fs.mergeSort precedes).map rank = (gs.mergeSort precedes).map rank := by
  refine List.Perm.eq_of_pairwise (fun _ _ _ _ => le_antisymm) (pairwise_rank_mergeSort fs)
    (pairwise_rank_mergeSort gs) ?_
  have hsorted := (List.mergeSort_perm fs precedes).trans (h.trans (List.mergeSort_perm gs precedes).symm)
  exact hsorted.map rank

theorem map_text_of_map_rank {fs gs : List Finding} (h : fs.map rank = gs.map rank) :
    fs.map text = gs.map text := by
  rw [← List.forall₂_eq_eq_eq, List.forall₂_map_left_iff, List.forall₂_map_right_iff] at h ⊢
  exact h.imp fun _ _ => text_eq_of_rank

end Finding

/-! ## Checks that never fail -/

theorem Fault.OfMapping.isUnresolved {f : Fault} (h : f.OfMapping) : f.isUnresolved = true := by
  cases f with
  | mapping f => rfl
  | _ => cases h

/-- The executable files of an image are found, unless there is no image or its files have no addresses. -/
theorem Source.unresolved_of_executables (s : State) :
    FaultsWithin (·.isUnresolved = true) (executables.resolve s) := by
  rw [resolve]
  refine FaultsWithin.bind ?_ fun i _ => (onMapping_nodesData i _).mono fun f => Fault.OfMapping.isUnresolved
  unfold State.image State.require
  split
  · exact .ok _
  · exact .error rfl

namespace Validator

abbrev Sure {α : Type} (x : Except Fault α) : Prop := FaultsWithin (fun _ => False) x

theorem sure_resolved (step : Nat) (what : String) (rs : References) : Sure (resolved step what rs) := by
  unfold resolved
  split
  · exact .ok _
  · rename_i f hf
    rw [if_pos (rs.onMapping_resolve f hf).isUnresolved]
    exact .ok _

theorem sure_actorFindings (step : Nat) (r : StepRecord) (previous : Option Actor)
    (before after : References) : Sure (actorFindings step r previous before after) := by
  unfold actorFindings
  split
  · split
    · exact .ok _
    · refine (sure_resolved _ _ _).bind fun found _ => ?_
      simp only
      split
      · exact .ok _
      · exact .ok _
  · exact .ok _

theorem sure_actorsFrom (step : Nat) (previous : Option Actor) (before : References) (l : BootLog) :
    Sure (actorsFrom step previous before l) := by
  induction l generalizing step previous before with
  | nil => exact .ok _
  | cons r rest ih =>
      rw [actorsFrom]
      refine (sure_resolved _ _ _).bind fun found _ => ?_
      exact (sure_actorFindings _ _ _ _ _).bind fun _ _ => (ih _ _ _).bind fun _ _ => .ok _

theorem sure_coverageFindings (s : State) (l : BootLog) : Sure (coverageFindings s l) := by
  unfold coverageFindings
  refine (sure_resolved _ _ _).bind fun measured _ => ?_
  simp only
  split
  · rename_i f hf
    rw [if_pos (Source.unresolved_of_executables s f hf)]
    exact .ok _
  · refine (sure_resolved _ _ _).bind fun files _ => ?_
    split
    · exact .ok _
    · exact .ok _

theorem sure_run (s : Option State) (l : BootLog) (v : Validator) : Sure (run s l v) := by
  cases v with
  | actors => exact sure_actorsFrom _ _ _ l
  | coverage =>
      cases s with
      | none => exact .ok _
      | some state =>
          rw [run]
          split
          · exact .ok _
          · exact sure_coverageFindings state l
  | noIssues => exact .ok _

end Validator

/-! ## Reports -/

namespace Check
variable {s : Option State} {l : BootLog} {checks others : List Check}

/-- True of a check that finds something in a log, if only nothing, and does not fail. -/
def Returns (s : Option State) (l : BootLog) (c : Check) : Prop := ∃ found, c s l = .ok found

def findings (s : Option State) (l : BootLog) (c : Check) : List Finding := (c s l).toOption.getD []

/-- Every finding of every check, as often as it was found, and nothing else, by step. -/
structure IsReport (s : Option State) (l : BootLog) (checks : List Check) (found : List Finding) : Prop where
  sorted : (found.map Finding.step).Pairwise (· ≤ ·)
  complete : ∃ parts, checks.mapM (fun check => check s l) = .ok parts ∧ found.Perm parts.flatten

theorem Returns.eq_findings {c : Check} (h : Returns s l c) : c s l = .ok (findings s l c) := by
  obtain ⟨found, hfound⟩ := h
  rw [findings, hfound]
  rfl

theorem returns_check (s : Option State) (l : BootLog) (v : Validator) : Returns s l v.check :=
  (Validator.sure_run s l v).exists_ok

theorem mapM_of_returns (h : ∀ c ∈ checks, Returns s l c) :
    checks.mapM (fun check => check s l) = .ok (checks.map (findings s l)) :=
  mapM_of_ok fun c hc => (h c hc).eq_findings

/-- The findings of checks that return, sorted. -/
theorem report_of_returns (h : ∀ c ∈ checks, Returns s l c) :
    report s l checks = .ok ((checks.map (findings s l)).flatten.mergeSort Finding.precedes) := by
  rw [report, mapM_of_returns h]
  rfl

theorem isReport_of_returns (h : ∀ c ∈ checks, Returns s l c) :
    IsReport s l checks ((checks.map (findings s l)).flatten.mergeSort Finding.precedes) := by
  refine ⟨?_, _, mapM_of_returns h, List.mergeSort_perm _ _⟩
  have hranks := List.pairwise_map.mp (Finding.pairwise_rank_mergeSort (checks.map (findings s l)).flatten)
  exact List.pairwise_map.mpr (hranks.imp fun hle => Prod.Lex.monotone_fst _ _ hle)

/-- Checks that return give reports that read the same in whichever order they are made. -/
theorem exists_reports_of_perm (hperm : checks.Perm others) (h : ∀ c ∈ checks, Returns s l c) :
    ∃ found found', report s l checks = .ok found ∧ report s l others = .ok found' ∧
      IsReport s l checks found ∧ IsReport s l others found' ∧
      found.map Finding.text = found'.map Finding.text := by
  have hothers : ∀ c ∈ others, Returns s l c := fun c hc => h c (hperm.mem_iff.mpr hc)
  refine ⟨_, _, report_of_returns h, report_of_returns hothers, isReport_of_returns h,
    isReport_of_returns hothers, ?_⟩
  have hranks := Finding.map_rank_mergeSort_of_perm (hperm.map (findings s l)).flatten
  exact Finding.map_text_of_map_rank hranks

end Check

namespace Validator

/-- The report on a log does not depend on the order of the validators. Their reports exist, hold every finding of
every one of them exactly once, are sorted by step, and read the same line by line. So it is with the reports of
any checks, as long as those that are not validators of this library do not fail. -/
theorem validate_perm (s : Option State) (l : BootLog) :
    (∀ vs ws : List Validator, vs.Perm ws → ∃ found found', validate s l vs = .ok found ∧
      validate s l ws = .ok found' ∧ Check.IsReport s l (vs.map check) found ∧
      Check.IsReport s l (ws.map check) found' ∧ found.map Finding.text = found'.map Finding.text) ∧
    ∀ checks others : List Check, checks.Perm others →
      (∀ c ∈ checks, (∀ v : Validator, c ≠ v.check) → Check.Returns s l c) →
      ∃ found found', Check.report s l checks = .ok found ∧ Check.report s l others = .ok found' ∧
        Check.IsReport s l checks found ∧ Check.IsReport s l others found' ∧
        found.map Finding.text = found'.map Finding.text := by
  constructor
  · intro vs ws hperm
    refine Check.exists_reports_of_perm (hperm.map check) fun c hc => ?_
    obtain ⟨v, -, rfl⟩ := List.mem_map.mp hc
    exact Check.returns_check s l v
  · intro checks others hperm hreturn
    refine Check.exists_reports_of_perm hperm fun c hc => ?_
    by_cases hshipped : ∃ v : Validator, c = v.check
    · obtain ⟨v, rfl⟩ := hshipped
      exact Check.returns_check s l v
    · exact hreturn c hc (not_exists.mp hshipped)

/-- A log of one step in which an actor runs whose code is measured nowhere and cannot be resolved. -/
def crowdedLog : BootLog := [
  ⟨some .pei,
    some (.referenced [⟨⟨0, .raw Blob.plainName (ByteArray.mk #[0])⟩, some .physical, [⟨0, 1⟩]⟩] none),
    .setActor .pei, [], [], [], [⟨some .actor, .source .noFit⟩, ⟨some .actions, .source .noFit⟩]⟩]

/-- A check that finds the same twice in every log, where other checks find something too. -/
def repeating : Check := fun _ _ => .ok [⟨0, some .actor, .source .noFit⟩, ⟨0, some .actor, .source .noFit⟩]

/-- Three findings of two validators at one step, two of them at one place, and five with those of another
check. -/
theorem validate_perm_crowdedLog :
    (∃ found found', validate none crowdedLog [.actors, .noIssues] = .ok found ∧
      validate none crowdedLog [.noIssues, .actors] = .ok found' ∧
      found.map Finding.text = found'.map Finding.text ∧ found.length = 3) ∧
    ∃ found found', Check.report none crowdedLog [actors.check, noIssues.check, repeating] = .ok found ∧
      Check.report none crowdedLog [repeating, noIssues.check, actors.check] = .ok found' ∧
      found.map Finding.text = found'.map Finding.text ∧ found.length = 5 := by
  have hperm : [actors.check, noIssues.check, repeating].Perm [repeating, noIssues.check, actors.check] :=
    (List.reverse_perm [actors.check, noIssues.check, repeating]).symm
  obtain ⟨found, found', h, h', ⟨-, parts, hparts, hall⟩, -, htext⟩ :=
    (validate_perm none crowdedLog).1 [.actors, .noIssues] [.noIssues, .actors] (by decide)
  obtain ⟨more, more', hmore, hmore', ⟨-, pieces, hpieces, hmoreAll⟩, -, htexts⟩ :=
    (validate_perm none crowdedLog).2 _ _ hperm (by
      intro c hc hother
      rcases List.mem_cons.mp hc with rfl | hc
      · exact absurd rfl (hother actors)
      · rcases List.mem_pair.mp hc with rfl | rfl
        · exact absurd rfl (hother noIssues)
        · exact ⟨_, rfl⟩)
  have hthree : (([actors, noIssues].map check).mapM fun (c : Check) => c none crowdedLog).toOption.map
      (fun parts => parts.flatten.length) = some 3 := by decide +kernel
  have hfive : ([actors.check, noIssues.check, repeating].mapM fun (c : Check) => c none crowdedLog).toOption.map
      (fun parts => parts.flatten.length) = some 5 := by decide +kernel
  rw [hparts] at hthree
  rw [hpieces] at hfive
  exact ⟨⟨found, found', h, h', htext, hall.length_eq.trans (Option.some.inj hthree)⟩,
    more, more', hmore, hmore', htexts, hmoreAll.length_eq.trans (Option.some.inj hfive)⟩

end Validator
end MeasuredBoot
