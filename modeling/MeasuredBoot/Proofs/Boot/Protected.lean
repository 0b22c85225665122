import MeasuredBoot.Boot.Validation
import MeasuredBoot.Proofs.Reference.Covering
import MeasuredBoot.Proofs.Runs

/-!
# Actors whose code was not measured in time

The validator of actors goes through a log and keeps one merged set of references. What it reports can be said
without that set: a step at which another actor begins to run than the last one before, while some byte of the
code of that actor was measured in no earlier step. There is one finding for each such step and no other, so that
further measurements never add a finding.
-/
namespace MeasuredBoot

namespace References
variable {rs out : References} {x : Artifact} {a : Int}

/-- True of references that resolve to ranges none of which has a negative length. -/
def Resolves (rs : References) : Prop :=
  ∃ out, rs.resolve = .ok out ∧ ∀ r ∈ out, ByteRanges.Sized r.ranges

/-- True of an address of an artifact which the references cover once they are resolved. -/
def Reaches (rs : References) (x : Artifact) (a : Int) : Prop :=
  ∃ out, rs.resolve = .ok out ∧ Covers out x a

theorem offsets_of_resolve (h : rs.resolve = .ok out) (hsized : ∀ r ∈ out, ByteRanges.Sized r.ranges) :
    Offsets out := by
  refine ⟨fun r hr => ?_, hsized⟩
  obtain ⟨s, -, hs⟩ := exists_of_mem_mapM h hr
  obtain ⟨ranges, -, heq⟩ := bind_eq_ok_iff.mp hs
  cases heq
  rfl

theorem reaches_iff (h : rs.resolve = .ok out) : Reaches rs x a ↔ Covers out x a := by
  constructor
  · rintro ⟨out', hout, hcovers⟩
    cases h.symm.trans hout
    exact hcovers
  · exact fun hcovers => ⟨out, h, hcovers⟩

theorem Reaches.mono {more : References} (hsub : rs ⊆ more) (hmore : Resolves more)
    (h : Reaches rs x a) : Reaches more x a := by
  obtain ⟨out, hout, r, hr, hsame, ha⟩ := h
  obtain ⟨out', hout', -⟩ := hmore
  obtain ⟨s, hs, hresolved⟩ := exists_of_mem_mapM hout hr
  obtain ⟨r', hr', hresolved'⟩ := mem_of_mapM hout' (hsub hs)
  cases hresolved.symm.trans hresolved'
  exact ⟨out', hout', r, hr', hsame, ha⟩

end References

namespace BootLog
variable {l : BootLog}

def lastActor (l : BootLog) : Option Actor := (l.filterMap StepRecord.actor).getLast?

/-- True of a byte that was measured in some step. -/
def Measures (l : BootLog) (x : Artifact) (a : Int) : Prop :=
  ∃ r ∈ l, (Evidence.referencesOf r.measured).Reaches x a

/-- At the step of a number, another actor begins to run than the last one before, and some byte of its code was
measured in no earlier step. -/
def Exposes (l : BootLog) (i : Nat) : Prop :=
  ∃ r actor code, l[i]? = some r ∧ r.actor = some actor ∧ r.code = some code ∧
    lastActor (l.take i) ≠ some actor ∧
    ∃ x a, code.references.Reaches x a ∧ ¬ Measures (l.take i) x a

/-- A log of which all measured references and all references to the code of actors resolve. -/
def Resolves (l : BootLog) : Prop :=
  ∀ r ∈ l, (Evidence.referencesOf r.measured).Resolves ∧ ∀ code, r.code = some code → code.references.Resolves

/-- Two logs with the same actors and their code step by step, the second one with more measurements. -/
def MeasuresMore (l more : BootLog) : Prop :=
  List.Forall₂ (fun r s => s.actor = r.actor ∧ s.code = r.code ∧ r.measured ⊆ s.measured) l more

theorem lastActor_concat (l : BootLog) (r : StepRecord) :
    lastActor (l ++ [r]) = if r.actor.isSome then r.actor else lastActor l := by
  rw [lastActor, List.filterMap_append]
  cases h : r.actor with
  | none => simp [h, lastActor]
  | some actor => simp [h]

theorem measures_concat {r : StepRecord} {x : Artifact} {a : Int} :
    Measures (l ++ [r]) x a ↔ Measures l x a ∨ (Evidence.referencesOf r.measured).Reaches x a := by
  simp [Measures, or_and_right, exists_or]

end BootLog

namespace Validator
open BootLog

def IsUnprotected (f : Finding) : Prop :=
  f.issue.place = some .actor ∧ ∃ text, f.issue.fault = .validation (.unprotectedActor text)

theorem resolved_of_ok {step : Nat} {what : String} {rs out : References} (h : rs.resolve = .ok out) :
    resolved step what rs = .ok (out, []) := by
  rw [resolved, h]

/-- What has been measured before a step, as one merged set. -/
structure Gathers (earlier : BootLog) (before : References) : Prop where
  offsets : References.Offsets before
  covers : ∀ x a, References.Covers before x a ↔ Measures earlier x a

theorem Gathers.concat {earlier : BootLog} {before out : References} {r : StepRecord}
    (h : Gathers earlier before) (hout : (Evidence.referencesOf r.measured).resolve = .ok out)
    (hsized : ∀ s ∈ out, ByteRanges.Sized s.ranges) :
    Gathers (earlier ++ [r]) (References.merge (before ++ out)) := by
  have hoffsets := h.offsets.append (References.offsets_of_resolve hout hsized)
  obtain ⟨hmerged, hcovers⟩ := References.merge_spec hoffsets
  refine ⟨hmerged.offsets, fun x a => ?_⟩
  rw [hcovers x a, References.covers_append, h.covers x a, measures_concat, References.reaches_iff hout]

/-- A byte of the code of an actor that begins to run after others is exposed if it was not gathered. -/
theorem exposes_iff {earlier : BootLog} {before out : References} {r : StepRecord} {actor : Actor}
    {code : Data} (h : Gathers earlier before) (rest : BootLog) (hactor : r.actor = some actor)
    (hcode : r.code = some code) (hnew : lastActor earlier ≠ some actor)
    (hout : code.references.resolve = .ok out) :
    Exposes (earlier ++ r :: rest) earlier.length ↔
      ∃ x a, References.Covers out x a ∧ ¬ References.Covers before x a := by
  have hat : (earlier ++ r :: rest)[earlier.length]? = some r := by simp
  have htake : (earlier ++ r :: rest).take earlier.length = earlier := List.take_left
  rw [Exposes, htake]
  constructor
  · rintro ⟨s, other, code', hs, -, hcode', -, x, a, hreaches, hfresh⟩
    cases hat.symm.trans hs
    cases hcode.symm.trans hcode'
    exact ⟨x, a, (References.reaches_iff hout).mp hreaches, fun hin => hfresh ((h.covers x a).mp hin)⟩
  · rintro ⟨x, a, hin, hfresh⟩
    exact ⟨r, actor, code, hat, hactor, hcode, hnew, x, a, (References.reaches_iff hout).mpr hin,
      fun hmeasured => hfresh ((h.covers x a).mpr hmeasured)⟩

/-- There is no finding about a step without an actor or without code, nor about an actor that ran before. -/
theorem not_exposes {earlier rest : BootLog} {r : StepRecord}
    (h : ∀ actor, r.actor = some actor → r.code ≠ none → lastActor earlier = some actor) :
    ¬ Exposes (earlier ++ r :: rest) earlier.length := by
  rintro ⟨s, actor, code, hs, hactor, hcode, hnew, -⟩
  have hat : (earlier ++ r :: rest)[earlier.length]? = some r := by simp
  cases hat.symm.trans hs
  rw [List.take_left] at hnew
  exact hnew (h actor hactor (by simp [hcode]))

theorem actorFindings_spec {earlier : BootLog} {before : References} {r : StepRecord}
    (h : Gathers earlier before) (hcode : ∀ code, r.code = some code → code.references.Resolves)
    (after : References) (rest : BootLog) :
    ∃ found, actorFindings earlier.length r (lastActor earlier) before after = .ok found ∧
      found.length ≤ 1 ∧ (∀ f ∈ found, f.step = earlier.length ∧ IsUnprotected f) ∧
      (found ≠ [] ↔ Exposes (earlier ++ r :: rest) earlier.length) := by
  have hnothing : ¬ Exposes (earlier ++ r :: rest) earlier.length →
      ([] : List Finding).length ≤ 1 ∧
        (∀ f ∈ ([] : List Finding), f.step = earlier.length ∧ IsUnprotected f) ∧
        (([] : List Finding) ≠ [] ↔ Exposes (earlier ++ r :: rest) earlier.length) :=
    fun hnot => ⟨Nat.zero_le 1, by simp, iff_of_false (by simp) hnot⟩
  rw [actorFindings]
  cases hactor : r.actor with
  | none => exact ⟨[], rfl, hnothing (not_exposes (by simp [hactor]))⟩
  | some actor =>
      cases hsource : r.code with
      | none => exact ⟨[], rfl, hnothing (not_exposes (by simp [hsource]))⟩
      | some code =>
          by_cases hsame : lastActor earlier = some actor
          · refine ⟨[], if_pos hsame, hnothing (not_exposes fun other hother _ => ?_)⟩
            rw [hsame, ← hother, hactor]
          · obtain ⟨out, hout, hsized⟩ := hcode code hsource
            have hexposes := exposes_iff h rest hactor hsource hsame hout
            have hnil := References.exclude_eq_nil_iff (References.offsets_of_resolve hout hsized) h.offsets
            simp only [if_neg hsame, resolved_of_ok hout, ok_bind]
            by_cases hmissing : out.exclude before = []
            · refine ⟨[], if_pos (List.isEmpty_iff.mpr hmissing), hnothing ?_⟩
              rw [hexposes]
              rintro ⟨x, a, hin, hfresh⟩
              exact hfresh (hnil.mp hmissing x a hin)
            · refine ⟨_, if_neg fun hempty => hmissing (List.isEmpty_iff.mp hempty), ?_⟩
              refine ⟨Nat.le_refl 1, fun f hf => ?_, iff_of_true (by simp) (hexposes.mpr ?_)⟩
              · rw [List.mem_singleton.mp hf]
                exact ⟨rfl, rfl, _, rfl⟩
              · rw [hnil] at hmissing
                simpa only [not_forall, exists_prop] using hmissing

/-- The findings about the steps from one on, given what was measured before. -/
theorem actorsFrom_spec {earlier rest : BootLog} {before : References} (h : Gathers earlier before)
    (hrest : Resolves rest) :
    ∃ found, actorsFrom earlier.length (lastActor earlier) before rest = .ok found ∧
      (found.map Finding.step).Pairwise (· < ·) ∧
      (∀ f ∈ found, earlier.length ≤ f.step ∧ IsUnprotected f) ∧
      ∀ i, (∃ f ∈ found, f.step = i) ↔ earlier.length ≤ i ∧ Exposes (earlier ++ rest) i := by
  induction rest generalizing earlier before with
  | nil =>
      refine ⟨[], by rw [actorsFrom], List.Pairwise.nil, by simp, fun i => iff_of_false (by simp) ?_⟩
      rintro ⟨hle, r, -, -, hr, -⟩
      rw [List.append_nil, List.getElem?_eq_none hle] at hr
      cases hr
  | cons r rest ih =>
      obtain ⟨⟨out, hout, hsized⟩, hcode⟩ := hrest r (by simp)
      have hgathers := h.concat hout hsized
      obtain ⟨first, hfirst, hlength, hkind, hexposes⟩ :=
        actorFindings_spec h hcode (References.merge (before ++ out)) rest
      obtain ⟨later, hlater, hsorted, hkinds, hsteps⟩ := ih hgathers fun s hs => hrest s (by simp [hs])
      rw [lastActor_concat, List.length_append, List.length_singleton] at hlater
      simp only [List.length_append, List.length_singleton, List.append_assoc, List.singleton_append]
        at hkinds hsteps
      refine ⟨first ++ later, ?_, ?_, fun f hf => ?_, fun i => ?_⟩
      · simp only [actorsFrom, resolved_of_ok hout, ok_bind, hfirst, hlater]
        rfl
      · rw [List.map_append, List.pairwise_append]
        refine ⟨?_, hsorted, ?_⟩
        · rw [List.pairwise_iff_getElem]
          intro i j hi hj hij
          rw [List.length_map] at hi hj
          omega
        · intro n hn m hm
          obtain ⟨f, hf, rfl⟩ := List.mem_map.mp hn
          obtain ⟨g, hg, rfl⟩ := List.mem_map.mp hm
          have hat := (hkind f hf).1
          have hafter := (hkinds g hg).1
          omega
      · rcases List.mem_append.mp hf with hf | hf
        · exact ⟨(hkind f hf).1.ge, (hkind f hf).2⟩
        · have hafter := (hkinds f hf).1
          exact ⟨by omega, (hkinds f hf).2⟩
      · constructor
        · rintro ⟨f, hf, rfl⟩
          rcases List.mem_append.mp hf with hf | hf
          · rw [(hkind f hf).1]
            exact ⟨Nat.le_refl _, hexposes.mp (List.ne_nil_of_mem hf)⟩
          · obtain ⟨hafter, hexposed⟩ := (hsteps f.step).mp ⟨f, hf, rfl⟩
            exact ⟨by omega, hexposed⟩
        · rintro ⟨hle, hexposed⟩
          rcases Nat.eq_or_lt_of_le hle with rfl | hlt
          · obtain ⟨f, hf⟩ := List.exists_mem_of_ne_nil first (hexposes.mpr hexposed)
            exact ⟨f, by simp [hf], (hkind f hf).1⟩
          · obtain ⟨f, hf, hi⟩ := (hsteps i).mpr ⟨hlt, hexposed⟩
            exact ⟨f, by simp [hf], hi⟩

/-! ## More measurements -/

theorem lastActor_of_measuresMore {l more : BootLog} (h : MeasuresMore l more) :
    lastActor more = lastActor l := by
  have hactors : more.filterMap StepRecord.actor = l.filterMap StepRecord.actor := by
    induction h with
    | nil => rfl
    | cons hr _ ih => rw [List.filterMap_cons, List.filterMap_cons, hr.1, ih]
  rw [lastActor, hactors, lastActor]

/-- The later of two related logs has a related record at each place. -/
theorem exists_of_measuresMore {l more : BootLog} (h : MeasuresMore l more) {i : Nat} {s : StepRecord}
    (hs : more[i]? = some s) :
    ∃ r, l[i]? = some r ∧ s.actor = r.actor ∧ s.code = r.code ∧ r.measured ⊆ s.measured := by
  induction h generalizing i with
  | nil => cases hs
  | @cons r s' l more hr _ ih =>
      cases i with
      | zero =>
          cases hs
          exact ⟨r, rfl, hr⟩
      | succ i => exact ih hs

theorem measures_of_measuresMore {l more : BootLog} (h : MeasuresMore l more) (hmore : Resolves more)
    {x : Artifact} {a : Int} (hl : Measures l x a) : Measures more x a := by
  induction h with
  | nil => exact hl
  | @cons r s l more hr _ ih =>
      obtain ⟨q, hq, hreaches⟩ := hl
      rcases List.mem_cons.mp hq with rfl | hq
      · have hsub : Evidence.referencesOf q.measured ⊆ Evidence.referencesOf s.measured := by
          intro ref href
          obtain ⟨e, he, href⟩ := List.mem_flatMap.mp href
          exact List.mem_flatMap.mpr ⟨e, hr.2.2 he, href⟩
        exact ⟨s, by simp, hreaches.mono hsub (hmore s (by simp)).1⟩
      · obtain ⟨p, hp, hmeasured⟩ := ih (fun p hp => hmore p (by simp [hp])) ⟨q, hq, hreaches⟩
        exact ⟨p, by simp [hp], hmeasured⟩

theorem exposes_of_measuresMore {l more : BootLog} (h : MeasuresMore l more) (hmore : Resolves more)
    {i : Nat} (hexposes : Exposes more i) : Exposes l i := by
  obtain ⟨s, actor, code, hs, hactor, hcode, hnew, x, a, hreaches, hfresh⟩ := hexposes
  obtain ⟨r, hr, hactor', hcode', -⟩ := exists_of_measuresMore h hs
  have htake : MeasuresMore (l.take i) (more.take i) := List.forall₂_take i h
  have hresolves : Resolves (more.take i) := fun p hp => hmore p (List.mem_of_mem_take hp)
  refine ⟨r, actor, code, hr, hactor' ▸ hactor, hcode' ▸ hcode, ?_, x, a, hreaches, fun hmeasured => ?_⟩
  · rwa [← lastActor_of_measuresMore htake]
  · exact hfresh (measures_of_measuresMore htake hresolves hmeasured)

/-- The validator of actors reports a step exactly if another actor begins to run there while some byte of its
code was measured in no earlier step: one finding for each such step, in order, and no other. More measurements
add no finding. -/
theorem actors_exact (s : Option State) {l : BootLog} (hl : Resolves l) :
    ∃ found, run s l .actors = .ok found ∧ (found.map Finding.step).Pairwise (· < ·) ∧
      (∀ f ∈ found, IsUnprotected f) ∧ (∀ i, (∃ f ∈ found, f.step = i) ↔ Exposes l i) ∧
      ∀ more, MeasuresMore l more → Resolves more → ∃ found', run s more .actors = .ok found' ∧
        ∀ f' ∈ found', ∃ f ∈ found, f.step = f'.step := by
  have hempty : Gathers [] [] := ⟨⟨by simp, by simp⟩, fun x a => by simp [References.Covers, Measures]⟩
  obtain ⟨found, hfound, hsorted, hkinds, hsteps⟩ := actorsFrom_spec hempty hl
  refine ⟨found, hfound, hsorted, fun f hf => (hkinds f hf).2, fun i => (hsteps i).trans ?_, ?_⟩
  · exact and_iff_right (Nat.zero_le i)
  · intro more hgrown hmore
    obtain ⟨found', hfound', -, -, hsteps'⟩ := actorsFrom_spec hempty hmore
    refine ⟨found', hfound', fun f' hf' => (hsteps f'.step).mpr ⟨Nat.zero_le _, ?_⟩⟩
    exact exposes_of_measuresMore hgrown hmore ((hsteps' f'.step).mp ⟨f', hf', rfl⟩).2

def sampleReference (length : Int) : Reference :=
  ⟨⟨0, .raw Blob.plainName (ByteArray.mk #[0, 1, 2, 3])⟩, none, [⟨0, length⟩]⟩

/-- A log in which two bytes are measured before an actor runs whose code is as long as given. -/
def sampleLog (codeLength : Int) : BootLog := [
  ⟨none, none, .setActor .pei, [], [⟨.referenced [sampleReference 2] none, none, none, .bytes [], none⟩], [], []⟩,
  ⟨some .pei, some (.referenced [sampleReference codeLength] none), .setActor .pei, [], [], [], []⟩]

theorem resolves_sampleLog {codeLength : Int} (h : 0 ≤ codeLength) : Resolves (sampleLog codeLength) := by
  have hone : ∀ length : Int, 0 ≤ length → References.Resolves [sampleReference length] := by
    intro length hlength
    refine ⟨[sampleReference length], rfl, fun r hr => ?_⟩
    rw [List.mem_singleton.mp hr]
    intro p hp
    rwa [List.mem_singleton.mp hp]
  intro r hr
  rcases List.mem_pair.mp hr with rfl | rfl
  · exact ⟨hone 2 (by decide), by simp⟩
  · refine ⟨⟨[], rfl, by simp⟩, fun code hcode => ?_⟩
    cases hcode
    exact hone codeLength h

/-- Code of two bytes is protected by the measurement, code of three bytes is not. -/
theorem actors_exact_sample : Resolves (sampleLog 2) ∧ Resolves (sampleLog 3) ∧
    (∀ i, ¬ Exposes (sampleLog 2) i) ∧ Exposes (sampleLog 3) 1 := by
  have htwo : Resolves (sampleLog 2) := resolves_sampleLog (by decide)
  have hthree : Resolves (sampleLog 3) := resolves_sampleLog (by decide)
  obtain ⟨found, hfound, -, -, hsteps, -⟩ := actors_exact none htwo
  obtain ⟨found', hfound', -, -, hsteps', -⟩ := actors_exact none hthree
  have hnone : ((run none (sampleLog 2) .actors).map fun fs => fs.map Finding.step).toOption =
      some [] := by decide +kernel
  have hone : ((run none (sampleLog 3) .actors).map fun fs => fs.map Finding.step).toOption =
      some [1] := by decide +kernel
  rw [hfound] at hnone
  rw [hfound'] at hone
  have hstepsOne : found'.map Finding.step = [1] := Option.some.inj hone
  have hstepsNone : found.map Finding.step = [] := Option.some.inj hnone
  have hmem : 1 ∈ found'.map Finding.step := by
    rw [hstepsOne]
    exact List.mem_singleton_self 1
  refine ⟨htwo, hthree, fun i hi => ?_, (hsteps' 1).mp (List.mem_map.mp hmem)⟩
  have hmem := List.mem_map.mpr ((hsteps i).mpr hi)
  rw [hstepsNone] at hmem
  cases hmem

end Validator
end MeasuredBoot
