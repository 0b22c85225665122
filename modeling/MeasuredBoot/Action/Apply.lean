import MeasuredBoot.Source.Resolve

/-!
# Applying actions

An action changes the state and may fail half way; what it changed before the failure stays. A measuring
action records its evidence last, so evidence exists only for measurements whose every command was
accepted.
-/
namespace MeasuredBoot.Action

/-- Changes to a state that may fail half way. -/
abbrev Run := EStateM Fault State

/-- Runs changes on the TPM of the state. -/
def onTpm (run : Tpm.Run Unit) : Run Unit := fun s =>
  match s.tpm with
  | none => .error (.state (.absent .tpm)) s
  | some t =>
    match run t with
    | .ok _ t' => .ok () { s with tpm := some t' }
    | .error f t' => .error f { s with tpm := some t' }

/-- Gives the TPM a command, caused by an action at the present place. -/
def command (cause : IssuedAction) (c : Command) : Run Unit := do
  let place := (← get).coordinates
  onTpm (Tpm.execute ⟨c, some place, some cause⟩)

/-- Evidence for data, produced by an action in the present state. -/
def evidence (s : State) (cause : IssuedAction) (chain : Part) (source : Source) (d : Data) : Evidence :=
  ⟨d, some chain, s.actor, source, some cause⟩

/-- Records that data were measured into the TPM. -/
def recordMeasured (cause : IssuedAction) (source : Source) (d : Data) : Run Unit :=
  modify fun s => { s with measured := s.measured.push (evidence s cause .tpm source d) }

/-- Records that a part has verified data. -/
def recordVerified (cause : IssuedAction) (chain : Part) (source : Source) (d : Data) : Run Unit :=
  modify fun s => { s with verified := s.verified.push (evidence s cause chain source d) }

/-- Extends a register with the digest of bytes and logs the event, for one algorithm. -/
def measureWith (cause : IssuedAction) (pcr : Int) (type : EventType) (data : Option Bytes)
    (b : Bytes) (a : Algorithm) : Run Unit := do
  let digest ← attempt (hashBytes a b)
  command cause (.extend pcr a digest)
  command cause (.logEvent ⟨pcr, a, digest, type, data⟩)

def apply (cause : IssuedAction) : Run Unit :=
  match cause.action with
  | setActor a => modify fun s => { s with actor := some a }
  | setFlow f => modify fun s => s.setFlow f
  | panic reason => throw (.panic reason)
  | tpmInit locality => command cause (.init locality)
  | tpmExtend pcr source a => do
    let d ← attempt (source.resolve (← get))
    let _ ← attempt (← get).theTpm
    let digest ← attempt d.converted
    command cause (.extend pcr a digest)
    recordMeasured cause source d
  | logEvent pcr a digest type data => command cause (.logEvent ⟨pcr, a, digest, type, data⟩)
  | measure pcr source type data => do
    let d ← attempt (source.resolve (← get))
    let t ← attempt (← get).theTpm
    let b ← attempt d.converted
    t.algorithms.forM (measureWith cause pcr type data b)
    recordMeasured cause source d
  | verifyByPch source => do
    let d ← attempt (source.resolve (← get))
    attempt (← get).thePch
    recordVerified cause .pch source d
  | verifyByPsp source => do
    let d ← attempt (source.resolve (← get))
    attempt (← get).thePsp
    recordVerified cause .psp source d

end MeasuredBoot.Action
