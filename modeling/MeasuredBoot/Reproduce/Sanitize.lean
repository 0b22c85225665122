import MeasuredBoot.Tpm.Command

/-!
# Sanitising a command log

A heuristic changes a command log before a register value is reproduced from it. The one known heuristic
keeps the first initialisation, turns the events of the hardware root of trust into extends, and drops
extends of zeros and of digests already taken from such events.
-/
namespace MeasuredBoot.Heuristic

/-- What the data of an event of the hardware root of trust begin with, in lower case. -/
def rootOfTrustMark : Bytes := Bytes.ofLatin "hrot measurement"

/-- The small letter of an ASCII capital. -/
def lowerByte (x : UInt8) : UInt8 := if 0x41 ≤ x ∧ x ≤ 0x5A then x + 0x20 else x

/-- True of an event of the hardware root of trust. -/
def isRootOfTrust (e : EventEntry) : Bool :=
  rootOfTrustMark.isPrefixOf ((e.data.getD []).map lowerByte)

/-- The first initialisation and the events of the hardware root of trust, as extends. -/
def leading (initialized : Bool) : List CommandRecord → List CommandRecord
  | [] => []
  | r :: rest =>
    match r.command with
    | .init _ => if initialized then leading true rest else r :: leading true rest
    | .logEvent e =>
      if isRootOfTrust e then { r with command := .ofEvent e } :: leading initialized rest
      else leading initialized rest
    | .extend .. => leading initialized rest

/-- The digests of the events of the hardware root of trust. -/
def denied (records : List CommandRecord) : List Bytes :=
  records.filterMap fun r =>
    match r.command with
    | .logEvent e => if isRootOfTrust e then some e.digest else none
    | _ => none

/-- True of an extend by a digest that is neither zero nor denied. -/
def keeps (taken : List Bytes) (r : CommandRecord) : Bool :=
  match r.command with
  | .extend _ _ digest => !digest.allZero && !taken.contains digest
  | _ => false

def sanitize (records : List CommandRecord) : List CommandRecord :=
  leading false records ++ records.filter (keeps (denied records))

def known : List (String × (List CommandRecord → List CommandRecord)) :=
  [("hrot_sanitize", sanitize)]

/-- Applies heuristics by name, one after another. -/
def applyAll (names : List String) (records : List CommandRecord) :
    Except Fault (List CommandRecord) :=
  names.foldlM (fun rs name =>
    match known.lookup name with
    | some h => .ok (h rs)
    | none => .error (.options (.unknownHeuristic name (", ".intercalate (known.map Prod.fst)))))
    records

end MeasuredBoot.Heuristic
