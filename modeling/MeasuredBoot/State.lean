import MeasuredBoot.Evidence
import MeasuredBoot.Tpm

/-!
# The state of a machine

A state holds at most one of each part, the place which the boot has reached, and the evidence gathered so
far. Reading a missing part is a fault that names it.
-/
namespace MeasuredBoot

/-- A machine during its boot. -/
structure State where
  biosImage : Option BiosImage := none
  txtPublic : Option TxtPublic := none
  amdRegisters : Option AmdRegisters := none
  tpm : Option Tpm := none
  pch : Bool := false
  psp : Bool := false
  flow : Option FlowRef := none
  /-- The step of the flow; before the first one it is -1. -/
  step : Int := -1
  action : Int := 0
  actor : Option Actor := none
  measured : Array Evidence := #[]
  verified : Array Evidence := #[]

/-- Something that may be offered to a state. -/
inductive Component where
  | artifact (b : Blob)
  | tpm (t : Tpm)
  | pch
  | psp
  | bareChain

namespace Component

def kindName : Component → String
  | artifact b => b.kindName
  | tpm _ => Part.tpm.kindName
  | pch => Part.pch.kindName
  | psp => Part.psp.kindName
  | bareChain => "TrustChain"

end Component

namespace State

/-- The numbers of the artifacts of a state. -/
def imageNumber : Nat := 0
def txtPublicNumber : Nat := 1
def amdRegistersNumber : Nat := 2

/-- The first number that belongs to no artifact of a state. -/
def freeNumber : Nat := 3

def parts (s : State) : List Part :=
  [(s.biosImage.isSome, .biosImage), (s.txtPublic.isSome, .txtPublic),
    (s.amdRegisters.isSome, .amdRegisters), (s.tpm.isSome, .tpm), (s.pch, .pch),
    (s.psp, Part.psp)].filterMap fun (held, part) => if held then some part else none

def require {α : Type} (part : Part) : Option α → Except Fault α
  | some a => .ok a
  | none => .error (.state (.absent part))

def image (s : State) : Except Fault BiosImage := require .biosImage s.biosImage

def txt (s : State) : Except Fault TxtPublic := require .txtPublic s.txtPublic

def registers (s : State) : Except Fault AmdRegisters := require .amdRegisters s.amdRegisters

def theTpm (s : State) : Except Fault Tpm := require .tpm s.tpm

def thePch (s : State) : Except Fault Unit := require .pch (if s.pch then some () else none)

def thePsp (s : State) : Except Fault Unit := require .psp (if s.psp then some () else none)

/-- The image of the state, as the artifact to which references point. -/
def imageArtifact (i : BiosImage) : Artifact := ⟨imageNumber, .image i⟩

def txtArtifact (t : TxtPublic) : Artifact := ⟨txtPublicNumber, .txtPublic t⟩

def registersArtifact (a : AmdRegisters) : Artifact := ⟨amdRegistersNumber, .amdRegisters a⟩

def partText (s : State) (part : Part) : Except Fault String :=
  match part with
  | .biosImage => s.image.map fun i => (Blob.image i).text
  | .txtPublic => s.txt.map fun t => (Blob.txtPublic t).text
  | .amdRegisters => s.registers.map fun a => (Blob.amdRegisters a).text
  | .tpm => s.theTpm.map fun _ => part.kindName
  | .pch => s.thePch.map fun _ => part.kindName
  | .psp => s.thePsp.map fun _ => part.kindName

/-- Puts a part into its place unless the place is taken. -/
def place (part : Part) (taken : Bool) (s : State) : Except Fault State :=
  if taken then .error (.state (.duplicate part)) else .ok s

/-- Includes an image or a snapshot of registers. -/
def includeArtifact (s : State) : Component → Except Fault State
  | .artifact (.image i) =>
    place .biosImage s.biosImage.isSome { s with biosImage := some i }
  | .artifact (.txtPublic t) =>
    place .txtPublic s.txtPublic.isSome { s with txtPublic := some t }
  | .artifact (.amdRegisters a) =>
    place .amdRegisters s.amdRegisters.isSome { s with amdRegisters := some a }
  | other => .error (.state (.notAnArtifact other.kindName))

/-- Includes a TPM or another part that gathers evidence. -/
def includeSubsystem (s : State) : Component → Except Fault State
  | .tpm t => place .tpm s.tpm.isSome { s with tpm := some t }
  | .pch => place .pch s.pch { s with pch := true }
  | .psp => place .psp s.psp { s with psp := true }
  | other => .error (.state (.notASubsystem other.kindName))

/-- A state that holds the given components. -/
def ofComponents (cs : List Component) : Except Fault State :=
  cs.foldlM (fun s c =>
    match c with
    | .artifact _ => s.includeArtifact c
    | _ => s.includeSubsystem c) {}

/-- Switches to a flow; the next step is its first one. -/
def setFlow (s : State) (f : FlowRef) : State := { s with flow := some f, step := -1 }

def coordinates (s : State) : Coordinates := ⟨s.flow, s.step, s.action⟩

/-- Flow, step and actor. -/
def text (s : State) : String :=
  "State(flow=" ++ Text.optional FlowRef.name s.flow ++ ", step=" ++ Text.decimal s.step ++ ", actor="
    ++ Text.optional Actor.name s.actor ++ ")"

end State
end MeasuredBoot
