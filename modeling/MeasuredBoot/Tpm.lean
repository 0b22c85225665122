import MeasuredBoot.Tpm.EventLog

/-!
# A simulated TPM

A TPM keeps values of two registers for each algorithm it supports, a log of every command it was given,
and an event log. It is initialised at most once: before that it holds no value, and afterwards every
extend replaces a value by the hash of the value and a digest. A command is logged before it is applied,
so a refused command is in the log too, and what a command wrote before it was refused stays written.
-/
namespace MeasuredBoot

/-- A register of one algorithm. -/
structure Bank where
  pcr : Int
  algorithm : Algorithm
deriving DecidableEq

/-- The state of a TPM. -/
structure Tpm where
  defaults : List Algorithm
  algorithms : List Algorithm
  values : List (Bank × Bytes)
  commands : Array CommandRecord
  events : Array EventEntry

namespace Tpm

/-- The algorithms of a TPM that was not told any. -/
def usualAlgorithms : List Algorithm := [.sha1, .sha256]

/-- The registers, in the order in which they are initialised. -/
def registers : List Int := [0, 1]

def fresh (algorithms : List Algorithm) : Tpm := ⟨algorithms, algorithms, [], #[], #[]⟩

def clear (t : Tpm) : Tpm := { t with values := [], commands := #[], events := #[] }

/-- Drops the values and the logs, and returns to the algorithms of the beginning. -/
def reset (t : Tpm) : Tpm := { t.clear with algorithms := t.defaults }

/-- A TPM is initialised once it holds a value. -/
def isInitialized (t : Tpm) : Bool := !t.values.isEmpty

/-- A value written in place of the one before, or at the end. -/
def put (bank : Bank) (value : Bytes) : List (Bank × Bytes) → List (Bank × Bytes)
  | [] => [(bank, value)]
  | (b, v) :: rest => if b = bank then (bank, value) :: rest else (b, v) :: put bank value rest

/-- Changes to a TPM that may be refused half way. -/
abbrev Run := EStateM Fault Tpm

/-- Writes the first value of a register: zeros, with the locality in the last byte of register zero. -/
def initBank (locality : Int) (a : Algorithm) (size : Nat) (pcr : Int) : Run Unit := do
  let value ← if pcr = 0 then attempt (EventLog.startValue size locality) else pure (Bytes.zeros size)
  modify fun t => { t with values := put ⟨pcr, a⟩ value t.values }

/-- Writes the first values of all registers of an algorithm. -/
def initAlgorithm (locality : Int) (a : Algorithm) : Run Unit := do
  let size ← attempt (digestSize a)
  registers.forM (initBank locality a size)

/-- Initialises the registers of all supported algorithms. -/
def initRegisters (locality : Int) : Run Unit := do
  if (← get).isInitialized then throw (.tpm .alreadyInitialized)
  (← get).algorithms.forM (initAlgorithm locality)

/-- Why a register cannot be used, if it cannot: there is no such register, the algorithm is not
supported, or the TPM is not initialised. -/
def obstacle? (t : Tpm) (pcr : Int) (a : Algorithm) : Option TpmFault :=
  if !registers.contains pcr then some (.unsupportedPcr pcr)
  else if !t.algorithms.contains a then some (.notSupported a)
  else if !t.isInitialized then some (.notInitialized pcr a)
  else none

def value (t : Tpm) (pcr : Int) (a : Algorithm) : Except Fault Bytes :=
  match t.obstacle? pcr a with
  | some f => .error (.tpm f)
  | none =>
    match t.values.lookup ⟨pcr, a⟩ with
    | some v => .ok v
    | none => .error (.tpm (.missingBank pcr a))

def setValue (pcr : Int) (a : Algorithm) (v : Bytes) : Run Unit := do
  match (← get).obstacle? pcr a with
  | some f => throw (.tpm f)
  | none => modify fun t => { t with values := put ⟨pcr, a⟩ v t.values }

def apply : Command → Run Unit
  | .init locality => initRegisters locality
  | .extend pcr a digest => do
    let old ← attempt ((← get).value pcr a)
    let new ← attempt (hashBytes a (old ++ digest))
    setValue pcr a new
  | .logEvent e => modify fun t => { t with events := t.events.push e }

def applyAll (cs : List Command) : Run Unit := cs.forM apply

/-- Logs a command with its cause and applies it. -/
def execute (r : CommandRecord) : Run Unit := do
  modify fun t => { t with commands := t.commands.push r }
  apply r.command

/-- The commands of the log, without their causes. -/
def commandList (t : Tpm) : List Command := t.commands.toList.map CommandRecord.command

/-- Values are shown by register, then by algorithm. -/
def bankPrecedes (x y : Bank × Bytes) : Bool :=
  x.1.pcr < y.1.pcr || (x.1.pcr = y.1.pcr && x.1.algorithm.code ≤ y.1.algorithm.code)

def text (t : Tpm) : String :=
  "TPM(" ++ ", ".intercalate ((t.values.mergeSort bankPrecedes).map fun (b, v) =>
    "PCR" ++ Text.decimal b.pcr ++ ":" ++ b.algorithm.name ++ "=" ++ v.toHex) ++ ")"

/-- Register zero of a fresh TPM with one algorithm, after an initialisation and further commands. -/
def replay (cs : List Command) (locality : Int) (a : Algorithm) : Except Fault Bytes :=
  match applyAll (.init locality :: cs) (fresh [a]) with
  | .ok _ t => t.value 0 a
  | .error f _ => .error f

end Tpm
end MeasuredBoot
