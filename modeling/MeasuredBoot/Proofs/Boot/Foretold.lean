import MeasuredBoot.Proofs.Boot.Raised

/-!
# The course of a run

The effects of the steps tell the course of a run before it is run: which steps follow each other, from flow
to flow, where the TPM is started, and how the run ends. A run that ends by itself ends as its course tells;
one whose course leads to a panic does not.
-/
namespace MeasuredBoot

/-- True of a record none of whose issues blames the time at which the TPM was used. -/
def StepRecord.Timely (r : StepRecord) : Prop := ∀ i ∈ r.issues, i.fault.Timely

/-- True of the record of a step that made somebody the running actor. -/
def StepRecord.Enters (r : StepRecord) (a : Actor) : Prop :=
  r.actor = some a ∧ ∃ x ∈ r.actions, x.action = .setActor a

def Step.Effect.isEntry (a : Actor) : Step.Effect → Bool
  | .enters x => x = a
  | _ => false

namespace Boot

/-- What a run has done: where it started the TPM, whether the code module has run, and whether the data of
register zero were measured. -/
structure Progress where
  started : Option Int := none
  codeModule : Bool := false
  data : Bool := false

def Progress.next (p : Progress) (step : Step) (effect : Step.Effect) : Progress where
  started := match effect with
    | .starts locality => some locality
    | _ => p.started
  codeModule := effect.isEntry .codeModule || p.codeModule
  data := step.isMeasurePcr0Data || p.data

@[simp] theorem Progress.next_codeModule (p : Progress) (step : Step) (effect : Step.Effect) :
    (p.next step effect).codeModule = (effect.isEntry .codeModule || p.codeModule) := rfl

@[simp] theorem Progress.next_data (p : Progress) (step : Step) (effect : Step.Effect) :
    (p.next step effect).data = (step.isMeasurePcr0Data || p.data) := rfl

/-- How a run ends, as far as the effects of its steps tell. -/
inductive Outlook where
  | ends (p : Progress)
  | panics
  | unclear

/-- How a run goes on from some progress, by the steps which are left of its flow and those of the flows to
which it switches, but by fewer than `fuel` steps. -/
def course (flows : FlowCatalog) (f : Findings) : (fuel : Nat) → List Step → Progress → Outlook
  | 0, _, _ => .unclear
  | _ + 1, [], p => .ends p
  | fuel + 1, step :: rest, p =>
    match step.effect f p.started with
    | .calm => course flows f fuel rest (p.next step .calm)
    | .enters a => course flows f fuel rest (p.next step (.enters a))
    | .starts locality => course flows f fuel rest (p.next step (.starts locality))
    | .leaves g => course flows f fuel (flows.steps g) (p.next step (.leaves g))
    | .panics => .panics
    | .unclear => .unclear

/-! ## Records -/

section Record
variable {step : Step} {b b' : Boot} {issues : List StepIssue} {actions : List Action}
  {x : IssuedAction}

theorem map_action_issuedBy (h : step.actions b.state = .ok (Step.newly actions)) :
    (issuedBy step b).map IssuedAction.action = actions := by
  rw [issuedBy, produce, h, map_action_newly]

theorem exists_of_mem_issuedBy (hissued : x ∈ issuedBy step b) :
    ∃ produced, step.actions b.state = .ok produced ∧ ∃ y ∈ produced, y.2 = x.action := by
  cases hactions : step.actions b.state with
  | error f =>
      rw [issuedBy, produce, hactions] at hissued
      cases hissued
  | ok produced =>
      rw [issuedBy, produce, hactions] at hissued
      exact ⟨produced, rfl, exists_of_mem_identify hissued⟩

end Record

/-! ## What a step does -/

section Outcome
variable {flow : FlowRef} {position : Int} {image : Option BiosImage} {algorithms : List Algorithm}
  {started : Option Int} {index : Nat} {step : Step} {a : IssuedAction} {b b' : Boot}
  {issues : List StepIssue}

/-- The number of the present action does not matter to where a boot is. -/
theorem atStep_action (s : State) (k : Int) (hs : s.AtStep flow position image algorithms started) :
    State.AtStep flow position image algorithms started { s with action := k } :=
  ⟨hs.flow, hs.step, hs.image, hs.tpm⟩

theorem applyActions_calm {actions : List IssuedAction}
    (hcalm : ∀ x ∈ actions, x.action.isCalm started = true)
    (hs : b.state.AtStep flow position image algorithms started)
    (h : applyActions flow index actions b = .ok issues b') :
    b'.state.AtStep flow position image algorithms started ∧ ∀ i ∈ issues, i.fault.Timely :=
  keeps_applyActions atStep_action (fun x hx => Action.keeps_apply (hcalm x hx)) hs h

theorem applyActions_singleton {u : State}
    (happly : Action.apply a { b.state with action := index } = .ok () u)
    (h : applyActions flow index [a] b = .ok issues b') : b'.state = u ∧ issues = [] := by
  obtain ⟨first, v, hfirst, hrest⟩ := exists_of_applyActions_cons h
  rw [applyAction_of_ok happly] at hfirst
  cases hfirst
  rcases hrest with ⟨-, rfl, rfl⟩ | ⟨-, later, hlater, rfl⟩
  · exact ⟨rfl, rfl⟩
  · cases hlater
    exact ⟨rfl, rfl⟩

theorem applyActions_start {locality : Int} {rest : List IssuedAction}
    (ha : a.action = .tpmInit locality)
    (hcalm : ∀ x ∈ rest, x.action.isCalm (some locality) = true)
    (hcomputable : Tpm.Computable algorithms) (hsome : algorithms ≠ []) (hlow : 0 ≤ locality)
    (hhigh : locality ≤ 255) (hs : b.state.AtStep flow position image algorithms none)
    (h : applyActions flow index (a :: rest) b = .ok issues b') :
    b'.state.AtStep flow position image algorithms (some locality) ∧
      ∀ i ∈ issues, i.fault.Timely := by
  obtain ⟨u, happly, hu⟩ := Action.apply_tpmInit ha (atStep_action b.state index hs) hcomputable hsome
    hlow hhigh
  obtain ⟨first, v, hfirst, hrest⟩ := exists_of_applyActions_cons h
  rw [applyAction_of_ok happly] at hfirst
  cases hfirst
  rcases hrest with ⟨-, rfl, rfl⟩ | ⟨-, later, hlater, rfl⟩
  · exact ⟨hu, fun i hi => absurd hi List.not_mem_nil⟩
  · exact applyActions_calm hcalm hu hlater

/-- What the record of a step with some effect says. -/
structure Reports (effect : Step.Effect) (step : Step) (r : StepRecord) : Prop where
  timely : r.Timely
  step : r.step = step
  entry : r.Enters .codeModule ↔ effect.isEntry .codeModule = true

theorem enters_recordOf_iff {who : Actor} : (recordOf step b b' issues).Enters who ↔
    b'.state.actor = some who ∧ .setActor who ∈ (issuedBy step b).map IssuedAction.action := by
  rw [List.mem_map]
  rfl

theorem reports_of_actions {effect : Step.Effect} {actions : List Action}
    (hactions : step.actions b.state = .ok (Step.newly actions))
    (hissues : ∀ i ∈ issues, i.fault.Timely)
    (hentry : b'.state.actor = some .codeModule ∧ Action.setActor .codeModule ∈ actions ↔
      effect.isEntry .codeModule = true) : Reports effect step (recordOf step b b' issues) where
  timely := faults_recordOf (fun _ => .of_ofData) (hactions ▸ .ok _) hissues
  step := rfl
  entry := by rw [enters_recordOf_iff, map_action_issuedBy hactions, hentry]

section Effect
variable (hs : b.state.AtStep flow position image algorithms started)
  (h : applyActions flow 0 (issuedBy step b) (begun flow step b) = .ok issues b')
include hs h

theorem arrives_calm (heffect : Step.Effect.calm.Describes started (step.actions b.state)) :
    b'.state.AtStep flow position image algorithms started ∧
      Reports .calm step (recordOf step b b' issues) := by
  obtain ⟨hfaults, hproduced⟩ := heffect
  have hcalm : ∀ x ∈ issuedBy step b, x.action.isCalm started = true := by
    intro x hx
    obtain ⟨produced, hactions, y, hy, heq⟩ := exists_of_mem_issuedBy hx
    rw [← heq]
    exact hproduced produced hactions y hy
  have hstarted : (begun flow step b).state.AtStep flow position image algorithms started := hs
  obtain ⟨hat, hissues⟩ := applyActions_calm hcalm hstarted h
  refine ⟨hat, faults_recordOf (fun _ => .of_ofData) hfaults hissues, rfl, ?_⟩
  rw [enters_recordOf_iff]
  constructor
  · rintro ⟨-, hmem⟩
    obtain ⟨x, hx, heq⟩ := List.mem_map.mp hmem
    have hx := hcalm x hx
    rw [heq] at hx
    cases hx
  · intro hentry
    cases hentry

omit hs in
theorem state_of_single {action : Action} {u : State}
    (hactions : step.actions b.state = .ok (Step.newly [action]))
    (happly : ∀ identity, Action.apply ⟨identity, action⟩ { b.state with action := (0 : Nat) } = .ok () u) :
    b'.state = u ∧ issues = [] := by
  obtain ⟨x, rest, hissued, rfl, hrest⟩ := List.map_eq_cons_iff.mp (map_action_issuedBy hactions)
  obtain rfl := List.map_eq_nil_iff.mp hrest
  rw [hissued] at h
  exact applyActions_singleton (b := begun flow step b) (happly x.identity) h

theorem arrives_enters {who : Actor}
    (heffect : (Step.Effect.enters who).Describes started (step.actions b.state)) :
    b'.state.AtStep flow position image algorithms started ∧
      Reports (.enters who) step (recordOf step b b' issues) := by
  obtain ⟨hstate, rfl⟩ := state_of_single h heffect fun _ => rfl
  have hactor : b'.state.actor = some who := by rw [hstate]
  refine ⟨?_, reports_of_actions heffect (fun i hi => absurd hi List.not_mem_nil) ?_⟩
  · rw [hstate]
    exact ⟨hs.flow, hs.step, hs.image, hs.tpm⟩
  · rw [hactor, List.mem_singleton, Step.Effect.isEntry, decide_eq_true_eq]
    simp only [Option.some.injEq, Action.setActor.injEq, eq_comm, and_self]

theorem arrives_leaves {g : FlowRef}
    (heffect : (Step.Effect.leaves g).Describes started (step.actions b.state)) :
    b'.state.AtStep g (-1) image algorithms started ∧
      Reports (.leaves g) step (recordOf step b b' issues) := by
  obtain ⟨hstate, rfl⟩ := state_of_single h heffect fun _ => rfl
  refine ⟨?_, reports_of_actions heffect (fun i hi => absurd hi List.not_mem_nil) ?_⟩
  · rw [hstate]
    exact ⟨rfl, rfl, hs.image, hs.tpm⟩
  · simp [Step.Effect.isEntry]

theorem arrives_starts (hcomputable : Tpm.Computable algorithms) (hsome : algorithms ≠ [])
    {locality : Int}
    (heffect : (Step.Effect.starts locality).Describes started (step.actions b.state)) :
    b'.state.AtStep flow position image algorithms (some locality) ∧
      Reports (.starts locality) step (recordOf step b b' issues) := by
  obtain ⟨rfl, hlow, hhigh, events, hactions, hcalm⟩ := heffect
  obtain ⟨x, rest, hissued, hx, hrest⟩ := List.map_eq_cons_iff.mp (map_action_issuedBy hactions)
  have hcalm' : ∀ y ∈ rest, y.action.isCalm (some locality) = true := by
    intro y hy
    apply hcalm
    rw [← hrest]
    exact List.mem_map_of_mem hy
  rw [hissued] at h
  have hstarted : (begun flow step b).state.AtStep flow position image algorithms none := hs
  obtain ⟨hat, hissues⟩ := applyActions_start hx hcalm' hcomputable hsome hlow hhigh hstarted h
  refine ⟨hat, reports_of_actions hactions hissues ?_⟩
  constructor
  · rintro ⟨-, hmem⟩
    rcases List.mem_cons.mp hmem with hmem | hmem
    · cases hmem
    · cases hcalm _ hmem
  · intro hentry
    cases hentry

omit hs in
theorem not_panics : ¬ Step.Effect.panics.Describes started (step.actions b.state) := by
  rintro ⟨reason, hactions⟩
  obtain ⟨x, rest, hissued, hx, -⟩ := List.map_eq_cons_iff.mp (map_action_issuedBy hactions)
  obtain ⟨b'', hpanic, -⟩ := applyAction_of_panic flow 0 (begun flow step b) hx
  rw [hissued, applyActions_cons_of_error hpanic] at h
  cases h

end Effect
end Outcome

/-! ## Whole runs -/

/-- What records account for between two stages of progress. -/
structure Accounts (records : List StepRecord) (p q : Progress) : Prop where
  timely : ∀ r ∈ records, r.Timely
  codeModule : q.codeModule = true ↔ p.codeModule = true ∨ ∃ r ∈ records, r.Enters .codeModule
  data : q.data = true ↔ p.data = true ∨ ∃ r ∈ records, r.step.isMeasurePcr0Data = true

theorem Accounts.nil (p : Progress) : Accounts [] p p where
  timely r hr := absurd hr List.not_mem_nil
  codeModule := by simp
  data := by simp

theorem Accounts.cons {effect : Step.Effect} {step : Step} {r : StepRecord} {records : List StepRecord}
    {p q : Progress} (hr : Reports effect step r) (h : Accounts records (p.next step effect) q) :
    Accounts (r :: records) p q where
  timely x hx := by
    rcases List.mem_cons.mp hx with rfl | hx
    · exact hr.timely
    · exact h.timely x hx
  codeModule := by
    rw [h.codeModule, List.exists_mem_cons_iff, hr.entry, p.next_codeModule, Bool.or_eq_true]
    tauto
  data := by
    rw [h.data, List.exists_mem_cons_iff, hr.step, p.next_data, Bool.or_eq_true]
    tauto

/-- What an outlook tells about a run that goes on from some progress and ends by itself. -/
def Outlook.Tells (algorithms : List Algorithm) (p : Progress) (b last : Boot) : Outlook → Prop
  | .ends q => (∃ t, last.state.tpm = some t ∧ t.StartedAt algorithms q.started) ∧
      ∃ records, last.log.toList = b.log.toList ++ records ∧ Accounts records p q
  | .panics => False
  | .unclear => True

theorem Outlook.Tells.of_next {algorithms : List Algorithm} {effect : Step.Effect} {step : Step}
    {r : StepRecord} {p : Progress} {b v last : Boot} {o : Outlook} (hr : Reports effect step r)
    (hlog : v.log = b.log.push r) (h : o.Tells algorithms (p.next step effect) v last) :
    o.Tells algorithms p b last := by
  cases o with
  | ends q =>
      obtain ⟨htpm, records, hrecords, haccounts⟩ := h
      refine ⟨htpm, r :: records, ?_, .cons hr haccounts⟩
      rw [hrecords, hlog, Array.toList_push, List.append_assoc, List.singleton_append]
  | panics => exact h
  | unclear => exact h

/-- A boot that has made some progress and has some steps of its flow left. -/
structure Stands (flows : FlowCatalog) (image : Option BiosImage) (algorithms : List Algorithm)
    (rest : List Step) (p : Progress) (s : State) : Prop where
  step : -1 ≤ s.step
  place : ∃ flow, s.AtStep flow s.step image algorithms p.started ∧
    (flows.steps flow).drop (s.step + 1).toNat = rest

section Stands
variable {flows : FlowCatalog} {image : Option BiosImage} {algorithms : List Algorithm}
  {rest : List Step} {p : Progress} {b last : Boot} {e : Execution}

theorem Stands.of_leaves {g : FlowRef} {s : State} (h : s.AtStep g (-1) image algorithms p.started) :
    Stands flows image algorithms (flows.steps g) p s := by
  have hstep := h.step
  refine ⟨by omega, g, hstep ▸ h, ?_⟩
  rw [hstep]
  rfl

theorem Stands.nil_of_ended {b' : Boot} (hs : Stands flows image algorithms rest p b.state)
    (hnext : nextStep flows b = .ok false b') : rest = [] := by
  obtain ⟨flow, hat, rfl⟩ := hs.place
  have hspec := nextStep_spec flows b
  rw [hnext] at hspec
  cases hspec with
  | idle hnone => cases hnone.symm.trans hat.flow
  | @ended flow' hflow hend =>
      obtain rfl : flow' = flow := Option.some.inj (hflow.symm.trans hat.flow)
      exact List.drop_eq_nil_iff.mpr (List.getElem?_eq_none_iff.mp hend)

/-- The first of the steps that are left is executed, and the others are left after it. -/
theorem Stands.of_begins (hs : Stands flows image algorithms rest p b.state) (h : e.Begins flows b) :
    e.start.state.AtStep e.flow (b.state.step + 1) image algorithms p.started ∧
      ∃ later, rest = e.step :: later ∧ ∀ (q : Progress) (s : State),
        s.AtStep e.flow (b.state.step + 1) image algorithms q.started →
          Stands flows image algorithms later q s := by
  obtain ⟨flow, hat, rfl⟩ := hs.place
  have hstep := hs.step
  obtain rfl : flow = e.flow := Option.some.inj (hat.flow.symm.trans h.current)
  have hfound := h.found
  rw [Execution.index, h.start_eq] at hfound
  refine ⟨?_, (flows.steps e.flow).drop (b.state.step + 1 + 1).toNat, ?_, ?_⟩
  · rw [h.start_eq]
    exact ⟨hat.flow, rfl, hat.image, hat.tpm⟩
  · -- Positions start below zero, so they are natural numbers only after the move.
    have hnumber : (b.state.step + 1 + 1).toNat = (b.state.step + 1).toNat + 1 := by omega
    rw [hnumber]
    obtain ⟨hlt, heq⟩ := List.getElem?_eq_some_iff.mp hfound
    rw [← heq]
    exact List.drop_eq_getElem_cons hlt
  · intro q s hq
    have hplace := hq.step
    refine ⟨by omega, e.flow, hplace ▸ hq, ?_⟩
    rw [hplace]

/-- A run that ends by itself ends as its course tells. -/
theorem tells_of_executes {es : List Execution} {o : Option Fault} (h : Executes flows b es o last)
    (ho : o = none) (hcomputable : Tpm.Computable algorithms) (hsome : algorithms ≠ []) (fuel : Nat)
    (hs : Stands flows image algorithms rest p b.state) :
    (course flows (Findings.of image) fuel rest p).Tells algorithms p b last := by
  -- The fuel of the course is not that of the run: where it is spent, the course is unclear.
  induction h generalizing fuel rest p with
  | spent _ _ => cases ho
  | broke _ _ _ => cases ho
  | @ended b b' hnext =>
      cases fuel with
      | zero => trivial
      | succ fuel =>
          obtain rfl := hs.nil_of_ended hnext
          obtain ⟨flow, hat, -⟩ := hs.place
          rcases eq_of_ended hnext with rfl | rfl
          · exact ⟨hat.tpm, [], (List.append_nil _).symm, .nil p⟩
          · exact ⟨hat.tpm, [], (List.append_nil _).symm, .nil p⟩
  | @step b last e es o hbegins hnext _ ih =>
      cases fuel with
      | zero => trivial
      | succ fuel =>
          obtain ⟨hat, later, rfl, hstands⟩ := hs.of_begins hbegins
          obtain ⟨issues, b', hactions, hstate, hlog⟩ := hbegins.exists_record hnext
          have heffect := Step.describes_effect hat hcomputable e.step
          have hrest {effect : Step.Effect} {rest : List Step}
              (hreports : Reports effect e.step (recordOf e.step e.start b' issues))
              (hleft : Stands flows image algorithms rest (p.next e.step effect) b'.state) :
              (course flows (Findings.of image) fuel rest (p.next e.step effect)).Tells
                algorithms p b last := .of_next hreports hlog (ih ho fuel (hstate ▸ hleft))
          rw [course]
          cases hcase : e.step.effect (Findings.of image) p.started with
          | calm =>
              rw [hcase] at heffect
              obtain ⟨hat', hreports⟩ := arrives_calm hat hactions heffect
              exact hrest hreports (hstands (p.next e.step .calm) _ hat')
          | enters a =>
              rw [hcase] at heffect
              obtain ⟨hat', hreports⟩ := arrives_enters hat hactions heffect
              exact hrest hreports (hstands (p.next e.step (.enters a)) _ hat')
          | starts locality =>
              rw [hcase] at heffect
              obtain ⟨hat', hreports⟩ := arrives_starts hat hactions hcomputable hsome heffect
              exact hrest hreports (hstands (p.next e.step (.starts locality)) _ hat')
          | leaves g =>
              rw [hcase] at heffect
              obtain ⟨hat', hreports⟩ := arrives_leaves hat hactions heffect
              exact hrest hreports (.of_leaves hat')
          | panics =>
              rw [hcase] at heffect
              exact absurd heffect (not_panics hactions)
          | unclear => trivial

end Stands
end Boot
end MeasuredBoot
