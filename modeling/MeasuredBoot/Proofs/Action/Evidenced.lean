import Mathlib.Data.List.Induction
import MeasuredBoot.Proofs.Action.Performed

/-!
# The evidence of an action

A measuring action that does not fail adds one piece of evidence, and by then the TPM has accepted an extend
with each of the digests of its data. An action that fails half way adds none, whatever it has given the TPM
before. That a command was accepted is said of the TPM which the log up to it leads to; so the log alone, with
the TPM at its beginning, tells which commands took effect.
-/
namespace MeasuredBoot

namespace Tpm
variable {t : Tpm}

/-- The TPM after the commands of a log, refused ones included. -/
def afterAll (t : Tpm) (rs : List CommandRecord) : Tpm := rs.foldl (fun u r => after (execute r) u) t

theorem afterAll_concat (t : Tpm) (rs : List CommandRecord) (r : CommandRecord) :
    t.afterAll (rs ++ [r]) = after (execute r) (t.afterAll rs) := by
  rw [afterAll, List.foldl_append]
  rfl

theorem algorithms_afterAll (t : Tpm) (rs : List CommandRecord) :
    (t.afterAll rs).algorithms = t.algorithms := by
  induction rs using List.reverseRecOn with
  | nil => rfl
  | append_singleton rs r ih => rw [afterAll_concat, algorithms_after_execute, ih]

end Tpm

/-- The TPM of a state is what its command log makes of another TPM. -/
def State.LoggedFrom (t : Tpm) (s : State) : Prop := s.tpm = some (t.afterAll s.commandLog)

/-- A state that differs from another in its TPM at most. -/
def State.ChangesTpm (s u : State) : Prop := ∃ o, u = { s with tpm := o }

structure State.Grows (s u : State) : Prop where
  measured : s.measured.toList <+: u.measured.toList
  verified : s.verified.toList <+: u.verified.toList

namespace Action
variable {cause : IssuedAction} {s u : State} {t : Tpm} {f : Fault} {source : Source}

def measuredSource? : Action → Option Source
  | tpmExtend _ source _ => some source
  | measure _ source _ _ => some source
  | _ => none

/-- The commands with which an action measures data into a TPM with some algorithms: one extend with the
converted data, or the digest of the converted data for every algorithm, each extended and logged. -/
inductive Measures (algorithms : List Algorithm) (d : Data) : Action → List Command → Prop
  | extend {pcr : Int} {source : Source} {a : Algorithm} {digest : Bytes} :
      d.converted = .ok digest →
      Measures algorithms d (.tpmExtend pcr source a) [.extend pcr a digest]
  | event {pcr : Int} {source : Source} {type : EventType} {data : Option Bytes} {b : Bytes}
      {digest : Algorithm → Bytes} :
      d.converted = .ok b → (∀ a ∈ algorithms, hashBytes a b = .ok (digest a)) →
      Measures algorithms d (.measure pcr source type data)
        (algorithms.flatMap fun a =>
          [.extend pcr a (digest a), .logEvent ⟨pcr, a, digest a, type, data⟩])

/-! ## Commands alone -/

theorem stays_command_changesTpm (s : State) (cause : IssuedAction) (c : Command) :
    Stays s.ChangesTpm (command cause c) := by
  rintro v ⟨o, rfl⟩
  rw [after_command]
  exact ⟨_, rfl⟩

theorem stays_measureWith_changesTpm (s : State) (cause : IssuedAction) (pcr : Int) (type : EventType)
    (data : Option Bytes) (b : Bytes) (a : Algorithm) :
    Stays s.ChangesTpm (measureWith cause pcr type data b a) :=
  (Stays.attempt _).bind fun _ =>
    (stays_command_changesTpm s _ _).bind fun _ => stays_command_changesTpm s _ _

theorem stays_command_loggedFrom (t : Tpm) (cause : IssuedAction) (c : Command) :
    Stays (State.LoggedFrom t) (command cause c) := by
  intro s hs
  have hlog := (writes_command cause c s).log
  rw [hs, Option.isSome_some, if_pos rfl] at hlog
  unfold State.LoggedFrom
  rw [hlog, recordsOf, List.map_singleton, Tpm.afterAll_concat, after_command]
  simp only [show s.tpm = _ from hs, Option.map_some]

/-- An action gives commands, and apart from them changes the actor, the flow and the evidence only. -/
theorem stays_apply {Inv : State → Prop} (hcommand : ∀ c, Stays Inv (command cause c))
    (hactor : ∀ (s : State) (actor : Option Actor), Inv s → Inv { s with actor := actor })
    (hflow : ∀ (s : State) (f : FlowRef), Inv s → Inv (s.setFlow f))
    (hmeasured : ∀ (s : State) (e : Evidence), Inv s → Inv { s with measured := s.measured.push e })
    (hverified : ∀ (s : State) (e : Evidence), Inv s → Inv { s with verified := s.verified.push e }) :
    Stays Inv (apply cause) := by
  obtain ⟨identity, action⟩ := cause
  cases action with
  | setActor a => exact .modify fun s hs => hactor s _ hs
  | setFlow f => exact .modify fun s hs => hflow s f hs
  | panic reason => exact .throw _
  | tpmInit locality => exact hcommand _
  | logEvent pcr a digest type data => exact hcommand _
  | tpmExtend pcr source a =>
      refine .get_bind fun s _ => (Stays.attempt _).bind fun d => .get_bind fun s _ => ?_
      refine (Stays.attempt _).bind fun t => (Stays.attempt _).bind fun digest => ?_
      exact (hcommand _).bind fun _ => .modify fun s hs => hmeasured s _ hs
  | measure pcr source type data =>
      refine .get_bind fun s _ => (Stays.attempt _).bind fun d => .get_bind fun s _ => ?_
      refine (Stays.attempt _).bind fun t => (Stays.attempt _).bind fun b => ?_
      refine Stays.bind (.forM fun a _ => ?_) fun _ => .modify fun s hs => hmeasured s _ hs
      exact (Stays.attempt _).bind fun digest => (hcommand _).bind fun _ => hcommand _
  | verifyByPch source =>
      refine .get_bind fun s _ => (Stays.attempt _).bind fun d => .get_bind fun s _ => ?_
      exact (Stays.attempt _).bind fun _ => .modify fun s hs => hverified s _ hs
  | verifyByPsp source =>
      refine .get_bind fun s _ => (Stays.attempt _).bind fun d => .get_bind fun s _ => ?_
      exact (Stays.attempt _).bind fun _ => .modify fun s hs => hverified s _ hs

/-- Whatever an action does, the log tells the TPM. -/
theorem stays_apply_loggedFrom (t : Tpm) (cause : IssuedAction) :
    Stays (State.LoggedFrom t) (apply cause) :=
  stays_apply (stays_command_loggedFrom t cause) (fun _ _ hs => hs) (fun _ _ hs => hs)
    (fun _ _ hs => hs) fun _ _ hs => hs

theorem stays_apply_grows (s : State) (cause : IssuedAction) : Stays s.Grows (apply cause) := by
  refine stays_apply (fun c v hv => ?_) (fun _ _ hv => ⟨hv.measured, hv.verified⟩)
    (fun _ _ hv => ⟨hv.measured, hv.verified⟩) (fun v e hv => ⟨?_, hv.verified⟩)
    (fun v e hv => ⟨hv.measured, ?_⟩)
  · rw [after_command]
    exact ⟨hv.measured, hv.verified⟩
  · rw [Array.toList_push]
    exact hv.measured.trans (List.prefix_append _ _)
  · rw [Array.toList_push]
    exact hv.verified.trans (List.prefix_append _ _)

/-! ## Failed actions -/

theorem attempt_bind_error {α : Type} {x : Except Fault α} {g : α → Run Unit}
    (h : (attempt x >>= g) s = .error f u) :
    (∃ e, x = .error e ∧ u = s) ∨ ∃ a, x = .ok a ∧ g a s = .error f u := by
  cases x with
  | error e =>
      cases h
      exact .inl ⟨f, rfl, rfl⟩
  | ok a => exact .inr ⟨a, rfl, h⟩

theorem error_of_recorded {x : Run Unit} {record : State → State}
    (h : (x >>= fun _ => modify record) s = .error f u) : x s = .error f u := by
  cases hx : x s with
  | ok a v =>
      rw [bind_of_ok hx] at h
      cases h
  | error e v =>
      rw [bind_of_error hx] at h
      exact h

theorem changesTpm_of_attempt_error {α : Type} {x : Except Fault α} {g : α → Run Unit}
    (h : (attempt x >>= g) s = .error f u)
    (hg : ∀ a, g a s = .error f u → s.ChangesTpm u) : s.ChangesTpm u := by
  obtain ⟨e, -, rfl⟩ | ⟨a, -, h⟩ := attempt_bind_error h
  · exact ⟨u.tpm, rfl⟩
  · exact hg a h

/-- Evidence is recorded last. -/
theorem changesTpm_of_recorded_error {x : Run Unit} {record : State → State}
    (hx : Stays s.ChangesTpm x) (h : (x >>= fun _ => modify record) s = .error f u) :
    s.ChangesTpm u := by
  have hkept := hx s ⟨s.tpm, rfl⟩
  rwa [after_of_error (error_of_recorded h)] at hkept

/-- An action that fails has changed nothing but the TPM. -/
theorem changesTpm_of_error (h : apply cause s = .error f u) : s.ChangesTpm u := by
  obtain ⟨identity, action⟩ := cause
  have hcommand : ∀ {c : Command}, command ⟨identity, action⟩ c s = .error f u → s.ChangesTpm u := by
    intro c hc
    have hkept := stays_command_changesTpm s ⟨identity, action⟩ c s ⟨s.tpm, rfl⟩
    rwa [after_of_error hc] at hkept
  cases action with
  | setActor a => cases h
  | setFlow f => cases h
  | panic reason =>
      cases h
      exact ⟨s.tpm, rfl⟩
  | tpmInit locality => exact hcommand h
  | logEvent pcr a digest type data => exact hcommand h
  | tpmExtend pcr source a =>
      refine changesTpm_of_attempt_error h fun d h => changesTpm_of_attempt_error h fun t h => ?_
      refine changesTpm_of_attempt_error h fun digest h => ?_
      exact changesTpm_of_recorded_error (stays_command_changesTpm s _ _) h
  | measure pcr source type data =>
      refine changesTpm_of_attempt_error h fun d h => changesTpm_of_attempt_error h fun t h => ?_
      refine changesTpm_of_attempt_error h fun b h => ?_
      exact changesTpm_of_recorded_error
        (.forM fun a _ => stays_measureWith_changesTpm s _ _ _ _ _ a) h
  | verifyByPch source =>
      refine changesTpm_of_attempt_error h fun d h => ?_
      exact changesTpm_of_recorded_error (.attempt s.thePch) h
  | verifyByPsp source =>
      refine changesTpm_of_attempt_error h fun d h => ?_
      exact changesTpm_of_recorded_error (.attempt s.thePsp) h

/-! ## Actions that did not fail -/

theorem measuring_of_mapM {pcr : Int} {type : EventType} {data : Option Bytes} {b : Bytes}
    {algorithms : List Algorithm} {parts : List (List Command)} {digest : Algorithm → Bytes}
    (h : algorithms.mapM (measuring pcr type data b) = .ok parts)
    (hdigest : ∀ a d, hashBytes a b = .ok d → digest a = d) :
    (∀ a ∈ algorithms, hashBytes a b = .ok (digest a)) ∧
      parts.flatten = algorithms.flatMap fun a =>
        [.extend pcr a (digest a), .logEvent ⟨pcr, a, digest a, type, data⟩] := by
  induction algorithms generalizing parts with
  | nil =>
      cases h
      exact ⟨fun a ha => absurd ha List.not_mem_nil, rfl⟩
  | cons a rest ih =>
      rw [List.mapM_cons] at h
      obtain ⟨first, hfirst, h⟩ := bind_eq_ok_iff.mp h
      obtain ⟨later, hlater, h⟩ := bind_eq_ok_iff.mp h
      obtain ⟨d, hd, hfirst⟩ := bind_eq_ok_iff.mp hfirst
      cases h
      cases hfirst
      obtain rfl := hdigest a d hd
      obtain ⟨hall, hflat⟩ := ih hlater
      refine ⟨fun x hx => ?_, ?_⟩
      · rcases List.mem_cons.mp hx with rfl | hx
        · exact hd
        · exact hall x hx
      · rw [List.flatten_cons, hflat, List.flatMap_cons]

theorem measured_of_ok (h : apply cause s = .ok () u) (ht : s.tpm = some t)
    (hsource : cause.action.measuredSource? = some source) :
    ∃ d cs t', source.resolve s = .ok d ∧ Measures t.algorithms d cause.action cs ∧
      Tpm.Accepts t (recordsOf s cause cs) t' ∧
      u = { s with tpm := some t', measured := s.measured.push (evidence s cause .tpm source d) } := by
  obtain ⟨identity, action⟩ := cause
  cases action with
  | tpmExtend pcr source' a =>
      cases hsource
      obtain ⟨d, hresolved, h⟩ := attempt_bind_run_eq_ok_iff.mp h
      obtain ⟨t', -, h⟩ := attempt_bind_run_eq_ok_iff.mp h
      obtain ⟨digest, hconverted, h⟩ := attempt_bind_run_eq_ok_iff.mp h
      obtain ⟨⟨⟩, v, hextend, h⟩ := bind_run_eq_ok_iff.mp h
      obtain ⟨t₀, t', ht₀, haccepts, rfl⟩ := command_of_ok hextend
      obtain rfl := Option.some.inj (ht.symm.trans ht₀)
      cases h
      exact ⟨d, _, t', hresolved, .extend hconverted, haccepts, rfl⟩
  | measure pcr source' type data =>
      cases hsource
      obtain ⟨d, hresolved, h⟩ := attempt_bind_run_eq_ok_iff.mp h
      obtain ⟨t', htpm, h⟩ := attempt_bind_run_eq_ok_iff.mp h
      obtain rfl : t = t' := Option.some.inj (ht.symm.trans (State.tpm_of_theTpm htpm))
      obtain ⟨b, hconverted, h⟩ := attempt_bind_run_eq_ok_iff.mp h
      obtain ⟨⟨⟩, v, hmeasured, h⟩ := bind_run_eq_ok_iff.mp h
      obtain ⟨parts, hparts, t₀, t', ht₀, haccepts, rfl⟩ := measureAll_of_ok ht hmeasured
      obtain rfl := Option.some.inj (ht.symm.trans ht₀)
      have hvalue : ∀ a d, hashBytes a b = .ok d → (hashBytes a b).toOption.getD [] = d := by
        intro a d hd
        rw [hd]
        rfl
      obtain ⟨hdigest, hflat⟩ := measuring_of_mapM hparts hvalue
      rw [hflat] at haccepts
      cases h
      exact ⟨d, _, t', hresolved, .event hconverted hdigest, haccepts, rfl⟩
  | _ => cases hsource

theorem measured_eq_of_ok (h : apply cause s = .ok () u)
    (hsource : cause.action.measuredSource? = none) : u.measured = s.measured := by
  obtain ⟨identity, action⟩ := cause
  have hcommand : ∀ {c : Command}, command ⟨identity, action⟩ c s = .ok () u →
      u.measured = s.measured := by
    intro c hc
    obtain ⟨t, t', -, -, rfl⟩ := command_of_ok hc
    rfl
  cases action with
  | setActor a =>
      cases h
      rfl
  | setFlow f =>
      cases h
      rfl
  | panic reason => cases h
  | tpmInit locality => exact hcommand h
  | logEvent pcr a digest type data => exact hcommand h
  | tpmExtend pcr source a => cases hsource
  | measure pcr source type data => cases hsource
  | verifyByPch source =>
      obtain ⟨d, -, h⟩ := attempt_bind_run_eq_ok_iff.mp h
      obtain ⟨⟨⟩, -, h⟩ := attempt_bind_run_eq_ok_iff.mp h
      cases h
      rfl
  | verifyByPsp source =>
      obtain ⟨d, -, h⟩ := attempt_bind_run_eq_ok_iff.mp h
      obtain ⟨⟨⟩, -, h⟩ := attempt_bind_run_eq_ok_iff.mp h
      cases h
      rfl

end Action
end MeasuredBoot
