import MeasuredBoot.Proofs.Boot.Protected
import MeasuredBoot.Proofs.Source.Nodes

/-!
# Executable files that were never measured

The validator of coverage joins what was measured in all steps and takes it away from the places of the executable
files. Both sides are known byte by byte: the references of a whole log reach what its steps reach, and the data
of the files refers to their bytes and nothing else, although it goes through physical addresses. So there is a
finding exactly if some byte of an executable file was measured in no step, one finding for the whole log.
-/
namespace MeasuredBoot

namespace BootLog
variable {l : BootLog}

def MeasuredResolve (l : BootLog) : Prop := ∀ r ∈ l, (Evidence.referencesOf r.measured).Resolves

theorem referencesOf_measured_cons (r : StepRecord) (l : BootLog) :
    Evidence.referencesOf (measured (r :: l)) =
      Evidence.referencesOf r.measured ++ Evidence.referencesOf l.measured := by
  rw [measured, List.flatMap_cons, Evidence.referencesOf, List.flatMap_append]
  rfl

theorem measures_cons {r : StepRecord} {x : Artifact} {a : Int} :
    Measures (r :: l) x a ↔ (Evidence.referencesOf r.measured).Reaches x a ∨ Measures l x a := by
  simp [Measures]

theorem Measures.same {x y : Artifact} {a : Int} (h : Measures l x a) (hsame : x.Same y) : Measures l y a := by
  obtain ⟨r, hr, out, hout, ref, href, hx, ha⟩ := h
  exact ⟨r, hr, out, hout, ref, href, hx.trans hsame, ha⟩

/-- The references of a whole log resolve to the bytes that were measured in some step. -/
theorem resolve_measured (h : l.MeasuredResolve) :
    ∃ out, (Evidence.referencesOf l.measured).resolve = .ok out ∧ References.Offsets out ∧
      ∀ x a, References.Covers out x a ↔ Measures l x a := by
  induction l with
  | nil => exact ⟨[], rfl, ⟨by simp, by simp⟩, fun x a => by simp [References.Covers, Measures]⟩
  | cons r rest ih =>
      obtain ⟨first, hfirst, hsized⟩ := h r (by simp)
      obtain ⟨later, hlater, hoffsets, hcovers⟩ := ih fun s hs => h s (by simp [hs])
      refine ⟨first ++ later, ?_, (References.offsets_of_resolve hfirst hsized).append hoffsets,
        fun x a => ?_⟩
      · rw [References.resolve] at hfirst hlater ⊢
        rw [referencesOf_measured_cons, List.mapM_append, hfirst, hlater]
        rfl
      · rw [References.covers_append, hcovers x a, measures_cons, References.reaches_iff hfirst]

end BootLog

namespace Validator
open BootLog

def IsIncomplete (f : Finding) : Prop :=
  f.issue.place = none ∧ ∃ text, f.issue.fault = .validation (.incompleteCoverage text)

variable {s : State} {i : BiosImage} {l : BootLog}

/-- The validator of coverage reports the last step, once, exactly if some byte of an executable file of the image
was measured in no step of the log; it reports nothing else. -/
theorem coverage_exact (hne : l ≠ []) (himage : s.biosImage = some i)
    (hsized : ∀ n, i.HasExecutable n → 0 ≤ n.size)
    (hmaps : ∀ n, i.HasExecutable n → i.Maps [n.range]) (hl : l.MeasuredResolve) :
    ∃ found, run (some s) l .coverage = .ok found ∧ found.length ≤ 1 ∧
      (∀ f ∈ found, f.step = l.length - 1 ∧ IsIncomplete f) ∧
      (found ≠ [] ↔ ∃ n a, i.HasExecutable n ∧ a ∈ n.range ∧
        ¬ Measures l (State.imageArtifact i) a) := by
  obtain ⟨gathered, hgathered, hgatheredOffsets, hmeasures⟩ := resolve_measured hl
  obtain ⟨hmerged, hmergedCovers⟩ := References.merge_spec hgatheredOffsets
  obtain ⟨d, hd, code, hcode, hcodeOffsets, hcodeCovers⟩ :=
    Source.executables_yields himage hsized hmaps
  have hrun : run (some s) l .coverage = coverageFindings s l := if_neg fun h => hne (List.isEmpty_iff.mp h)
  have hnil : code.exclude gathered.merge = [] ↔
      ∀ n a, i.HasExecutable n → a ∈ n.range → Measures l (State.imageArtifact i) a := by
    -- The measured references are merged twice, which leaves the bytes that they cover as they were.
    rw [References.exclude_eq_nil_iff hcodeOffsets hmerged.offsets]
    simp only [hmergedCovers, hmeasures, hcodeCovers]
    constructor
    · exact fun h n a hn ha => h _ a ⟨⟨rfl, rfl⟩, n, hn, ha⟩
    · rintro h x a ⟨hsame, n, hn, ha⟩
      exact (h n a hn ha).same hsame
  simp only [hrun, coverageFindings, resolved_of_ok hgathered, resolved_of_ok hcode, ok_bind, hd]
  by_cases hmissing : code.exclude gathered.merge = []
  · refine ⟨[], if_pos (List.isEmpty_iff.mpr hmissing), Nat.zero_le 1, by simp, iff_of_false (by simp) ?_⟩
    rintro ⟨n, a, hn, ha, hfresh⟩
    exact hfresh (hnil.mp hmissing n a hn ha)
  · refine ⟨_, if_neg fun hempty => hmissing (List.isEmpty_iff.mp hempty), Nat.le_refl 1, fun f hf => ?_,
      iff_of_true (by simp) ?_⟩
    · rw [List.mem_singleton.mp hf]
      exact ⟨rfl, rfl, _, rfl⟩
    · rw [hnil] at hmissing
      simpa only [not_forall, exists_prop] using hmissing

/-- An image of eight bytes whose BIOS region holds a volume with two files: three bytes with a terse executable
in them, and one byte without any section. -/
def sampleLayout : BiosImage where
  content := ByteArray.mk #[0, 1, 2, 3, 4, 5, 6, 7]
  regions := some [("BIOS", ⟨4, 4⟩)]
  nodes := [.mk .volume 4 4 none [
    .mk (.file 0x06 "module") 4 3 none [.mk (.section Node.teSection) 5 2 none []],
    .mk (.file 0x01 "data") 7 1 none []]]
  intel := none
  amd := none

def measuringLog (length : Int) : BootLog := [
  ⟨none, none, .setActor .pei, [], [], [], []⟩,
  ⟨some .pei, none, .setActor .pei, [], [⟨.referenced
    [⟨State.imageArtifact sampleLayout, some .physical, [⟨0xFFFFFFFC, length⟩]⟩] none,
    none, none, .bytes [], none⟩], [], []⟩]

theorem hasExecutable_sampleLayout {n : Node} : sampleLayout.HasExecutable n ↔
    n = .mk (.file 0x06 "module") 4 3 none [.mk (.section Node.teSection) 5 2 none []] := by
  rw [← BiosImage.mem_files_isExecutable]
  exact List.mem_singleton

theorem measuredResolve_measuringLog {length : Int} (hlength : 0 ≤ length)
    (hplace : AddressMap.physical.resolve (.image sampleLayout) [⟨0xFFFFFFFC, length⟩] =
      .ok [⟨4, length⟩]) : (measuringLog length).MeasuredResolve := by
  intro r hr
  rcases List.mem_pair.mp hr with rfl | rfl
  · exact ⟨[], rfl, by simp⟩
  · refine ⟨[⟨State.imageArtifact sampleLayout, none, [⟨4, length⟩]⟩], ?_, ?_⟩
    · exact References.resolve_singleton hplace
    · simpa [ByteRanges.Sized] using hlength

/-- Three measured bytes cover the file with code, two leave one of its bytes out; the data is never missed. -/
theorem coverage_exact_sample : (measuringLog 3).MeasuredResolve ∧ (measuringLog 2).MeasuredResolve ∧
    (∀ n a, sampleLayout.HasExecutable n → a ∈ n.range →
      Measures (measuringLog 3) (State.imageArtifact sampleLayout) a) ∧
    ∃ n a, sampleLayout.HasExecutable n ∧ a ∈ n.range ∧
      ¬ Measures (measuringLog 2) (State.imageArtifact sampleLayout) a := by
  have hthree : (measuringLog 3).MeasuredResolve := measuredResolve_measuringLog (by decide) (by rfl)
  have htwo : (measuringLog 2).MeasuredResolve := measuredResolve_measuringLog (by decide) (by rfl)
  have hsized : ∀ n, sampleLayout.HasExecutable n → 0 ≤ n.size := by
    intro n hn
    rw [hasExecutable_sampleLayout.mp hn]
    decide
  have hmaps : ∀ n, sampleLayout.HasExecutable n → sampleLayout.Maps [n.range] := by
    rintro n hn a ⟨r, hr, ha⟩
    rw [List.mem_singleton.mp hr, hasExecutable_sampleLayout.mp hn] at ha
    have hfrom : 4 ≤ a := ha.1
    have huntil : a < 7 := ha.2
    exact ⟨⟨4, 4⟩, by rfl, hfrom, Int.lt_trans huntil (by decide)⟩
  have hne : ∀ length, measuringLog length ≠ [] := fun _ => List.cons_ne_nil _ _
  have himage : ({ biosImage := some sampleLayout } : State).biosImage = some sampleLayout := rfl
  obtain ⟨found, hfound, -, -, hexact⟩ := coverage_exact (hne 3) himage hsized hmaps hthree
  obtain ⟨found', hfound', -, -, hexact'⟩ := coverage_exact (hne 2) himage hsized hmaps htwo
  have hnone : ((run (some { biosImage := some sampleLayout }) (measuringLog 3) .coverage).map
      List.length).toOption = some 0 := by decide +kernel
  have hone : ((run (some { biosImage := some sampleLayout }) (measuringLog 2) .coverage).map
      List.length).toOption = some 1 := by decide +kernel
  rw [hfound] at hnone
  rw [hfound'] at hone
  have hempty : found.length = 0 := Option.some.inj hnone
  have hsingle : found'.length = 1 := Option.some.inj hone
  refine ⟨hthree, htwo, fun n a hn ha => ?_, hexact'.mp ?_⟩
  · by_contra hfresh
    exact hexact.mpr ⟨n, a, hn, ha, hfresh⟩ (List.length_eq_zero_iff.mp hempty)
  · rintro rfl
    cases hsingle

end Validator
end MeasuredBoot
