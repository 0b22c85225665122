import MeasuredBoot.Proofs.Action.Issued

/-!
# Performed actions

What it means that an action did not fail. The commands that it gave the TPM are a function of the state
and of the algorithms of the TPM, all of them were accepted, the parts of the machine are the same as
before, and the place of the boot is the same unless the action switches the flow.
-/
namespace MeasuredBoot

/-- The parts of a machine apart from its TPM are the same in two states. -/
structure State.SameParts (s u : State) : Prop where
  image : u.biosImage = s.biosImage
  txt : u.txtPublic = s.txtPublic
  registers : u.amdRegisters = s.amdRegisters
  pch : u.pch = s.pch
  psp : u.psp = s.psp

theorem State.SameParts.refl (s : State) : s.SameParts s := ⟨rfl, rfl, rfl, rfl, rfl⟩

theorem State.SameParts.trans {s v u : State} (h : s.SameParts v) (h' : v.SameParts u) :
    s.SameParts u where
  image := h'.image.trans h.image
  txt := h'.txt.trans h.txt
  registers := h'.registers.trans h.registers
  pch := h'.pch.trans h.pch
  psp := h'.psp.trans h.psp

namespace Action

/-- The extend and the event of a measurement with one algorithm. -/
def measuring (pcr : Int) (type : EventType) (data : Option Bytes) (b : Bytes) (a : Algorithm) :
    Except Fault (List Command) := do
  let digest ← hashBytes a b
  return [.extend pcr a digest, .logEvent ⟨pcr, a, digest, type, data⟩]

/-- The commands that an action gives a TPM with some algorithms if nothing fails. -/
def commands (s : State) (algorithms : List Algorithm) : Action → Except Fault (List Command)
  | tpmInit locality => return [.init locality]
  | tpmExtend pcr source a => do
    let d ← source.resolve s
    let digest ← d.converted
    return [.extend pcr a digest]
  | logEvent pcr a digest type data => return [.logEvent ⟨pcr, a, digest, type, data⟩]
  | measure pcr source type data => do
    let d ← source.resolve s
    let b ← d.converted
    return (← algorithms.mapM (measuring pcr type data b)).flatten
  | _ => return []

def Moves (s u : State) : Action → Prop
  | setFlow f => u.flow = some f ∧ u.step = -1
  | _ => u.flow = s.flow ∧ u.step = s.step

/-- A state whose TPM has accepted the commands of an action; all else is as before. -/
def Issues (cause : IssuedAction) (cs : List Command) (s u : State) : Prop :=
  ∃ t t', s.tpm = some t ∧ Tpm.Accepts t (recordsOf s cause cs) t' ∧ u = { s with tpm := some t' }

/-- What an action that did not fail has done. -/
structure Performed (cause : IssuedAction) (t : Tpm) (s u : State) : Prop where
  accepted : ∃ cs t', commands s t.algorithms cause.action = .ok cs ∧
    Tpm.Accepts t (recordsOf s cause cs) t' ∧ u.tpm = some t'
  parts : s.SameParts u
  moves : Moves s u cause.action

/-! ## Commands -/

theorem Issues.nil {s : State} {t : Tpm} (ht : s.tpm = some t) (cause : IssuedAction) :
    Issues cause [] s s := by
  refine ⟨t, t, ht, rfl, ?_⟩
  rw [← ht]

theorem Issues.append {cause : IssuedAction} {cs ds : List Command} {s v u : State}
    (h : Issues cause cs s v) (h' : Issues cause ds v u) : Issues cause (cs ++ ds) s u := by
  obtain ⟨t, t', ht, haccepts, rfl⟩ := h
  obtain ⟨_, t'', ⟨⟩, haccepts', rfl⟩ := h'
  refine ⟨t, t'', ht, ?_, rfl⟩
  rw [recordsOf, List.map_append]
  exact Tpm.accepts_append.mpr ⟨t', haccepts, haccepts'⟩

theorem command_of_ok {cause : IssuedAction} {c : Command} {s u : State}
    (h : command cause c s = .ok () u) : Issues cause [c] s u := by
  rw [command, get_bind_run] at h
  unfold onTpm at h
  split at h
  · cases h
  · rename_i t ht
    split at h
    · rename_i t' haccepted
      cases h
      exact ⟨t, t', ht, Tpm.accepts_cons.mpr ⟨t', haccepted, rfl⟩, rfl⟩
    · cases h

theorem measureWith_of_ok {cause : IssuedAction} {pcr : Int} {type : EventType} {data : Option Bytes}
    {b : Bytes} {a : Algorithm} {s u : State} (h : measureWith cause pcr type data b a s = .ok () u) :
    ∃ cs, measuring pcr type data b a = .ok cs ∧ Issues cause cs s u := by
  obtain ⟨digest, hdigest, hrest⟩ := attempt_bind_run_eq_ok_iff.mp h
  obtain ⟨⟨⟩, v, hextend, hevent⟩ := bind_run_eq_ok_iff.mp hrest
  refine ⟨[.extend pcr a digest, .logEvent ⟨pcr, a, digest, type, data⟩], ?_, ?_⟩
  · rw [measuring, hdigest]
    rfl
  · exact (command_of_ok hextend).append (command_of_ok hevent)

theorem measureAll_of_ok {cause : IssuedAction} {pcr : Int} {type : EventType} {data : Option Bytes}
    {b : Bytes} {algorithms : List Algorithm} {s u : State} {t : Tpm} (ht : s.tpm = some t)
    (h : algorithms.forM (measureWith cause pcr type data b) s = .ok () u) :
    ∃ parts, algorithms.mapM (measuring pcr type data b) = .ok parts ∧ Issues cause parts.flatten s u := by
  induction algorithms generalizing s t with
  | nil =>
      cases h
      exact ⟨[], rfl, .nil ht cause⟩
  | cons a rest ih =>
      obtain ⟨⟨⟩, v, hfirst, hrest⟩ := bind_run_eq_ok_iff.mp h
      obtain ⟨cs, hcs, hissues⟩ := measureWith_of_ok hfirst
      obtain ⟨_, t', -, -, hv⟩ := id hissues
      obtain ⟨parts, hparts, hissued⟩ := ih (congrArg State.tpm hv) hrest
      refine ⟨cs :: parts, ?_, hissues.append hissued⟩
      rw [List.mapM_cons, hcs, ok_bind, hparts]
      rfl

/-! ## Actions -/

theorem Issues.performed {cause : IssuedAction} {cs : List Command} {t : Tpm} {s v u : State}
    (h : Issues cause cs s v) (ht : s.tpm = some t)
    (hcs : commands s t.algorithms cause.action = .ok cs) (htpm : u.tpm = v.tpm) (hparts : v.SameParts u)
    (hmoves : Moves v u cause.action) : Performed cause t s u := by
  obtain ⟨t₀, t', ht₀, haccepts, rfl⟩ := h
  obtain rfl := Option.some.inj (ht.symm.trans ht₀)
  refine ⟨⟨cs, t', hcs, haccepts, htpm⟩, ⟨hparts.1, hparts.2, hparts.3, hparts.4, hparts.5⟩, ?_⟩
  cases haction : cause.action <;> rw [haction] at hmoves <;> exact hmoves

theorem apply_of_ok {cause : IssuedAction} {t : Tpm} {s u : State} (h : apply cause s = .ok () u)
    (ht : s.tpm = some t) : Performed cause t s u := by
  obtain ⟨identity, action⟩ := cause
  cases action with
  | setActor a =>
      cases h
      exact ⟨⟨[], t, rfl, rfl, ht⟩, ⟨rfl, rfl, rfl, rfl, rfl⟩, rfl, rfl⟩
  | setFlow f =>
      cases h
      exact ⟨⟨[], t, rfl, rfl, ht⟩, ⟨rfl, rfl, rfl, rfl, rfl⟩, rfl, rfl⟩
  | panic reason => cases h
  | tpmInit locality => exact (command_of_ok h).performed ht rfl rfl (.refl u) ⟨rfl, rfl⟩
  | logEvent pcr a digest type data => exact (command_of_ok h).performed ht rfl rfl (.refl u) ⟨rfl, rfl⟩
  | tpmExtend pcr source a =>
      obtain ⟨d, hresolved, h⟩ := attempt_bind_run_eq_ok_iff.mp h
      obtain ⟨t', -, h⟩ := attempt_bind_run_eq_ok_iff.mp h
      obtain ⟨digest, hconverted, h⟩ := attempt_bind_run_eq_ok_iff.mp h
      obtain ⟨⟨⟩, v, hextend, h⟩ := bind_run_eq_ok_iff.mp h
      cases h
      refine (command_of_ok hextend).performed ht ?_ rfl ⟨rfl, rfl, rfl, rfl, rfl⟩ ⟨rfl, rfl⟩
      rw [commands, hresolved, ok_bind, hconverted]
      rfl
  | measure pcr source type data =>
      obtain ⟨d, hresolved, h⟩ := attempt_bind_run_eq_ok_iff.mp h
      obtain ⟨t', htpm, h⟩ := attempt_bind_run_eq_ok_iff.mp h
      obtain rfl : t = t' := by
        rw [State.theTpm, ht] at htpm
        exact Except.ok.inj htpm
      obtain ⟨b, hconverted, h⟩ := attempt_bind_run_eq_ok_iff.mp h
      obtain ⟨⟨⟩, v, hmeasured, h⟩ := bind_run_eq_ok_iff.mp h
      cases h
      obtain ⟨parts, hparts, hissues⟩ := measureAll_of_ok ht hmeasured
      refine hissues.performed ht ?_ rfl ⟨rfl, rfl, rfl, rfl, rfl⟩ ⟨rfl, rfl⟩
      rw [commands, hresolved, ok_bind, hconverted, ok_bind, hparts]
      rfl
  | verifyByPch source =>
      obtain ⟨d, -, h⟩ := attempt_bind_run_eq_ok_iff.mp h
      obtain ⟨⟨⟩, -, h⟩ := attempt_bind_run_eq_ok_iff.mp h
      cases h
      exact ⟨⟨[], t, rfl, rfl, ht⟩, ⟨rfl, rfl, rfl, rfl, rfl⟩, rfl, rfl⟩
  | verifyByPsp source =>
      obtain ⟨d, -, h⟩ := attempt_bind_run_eq_ok_iff.mp h
      obtain ⟨⟨⟩, -, h⟩ := attempt_bind_run_eq_ok_iff.mp h
      cases h
      exact ⟨⟨[], t, rfl, rfl, ht⟩, ⟨rfl, rfl, rfl, rfl, rfl⟩, rfl, rfl⟩

end Action
end MeasuredBoot
