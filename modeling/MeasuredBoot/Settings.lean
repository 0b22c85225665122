import MeasuredBoot.Boot.Run
import MeasuredBoot.Options
import MeasuredBoot.Reproduce.Pcr0
import MeasuredBoot.Reproduce.Reconciliation
import MeasuredBoot.Text.Blank
import MeasuredBoot.Text.DecimalDigit

/-!
# Settings

The bounds of the searches and of a run are options. A missing option has its usual value; a present one
is read as a truth value or as a number, whatever was written.
-/
namespace MeasuredBoot

namespace OptionValue

/-- The number with the digits read so far and those that follow; a single underscore may stand before a
digit. -/
def decimalFrom? (known : Nat) : List Char → Option Nat
  | [] => some known
  | '_' :: c :: rest => do decimalFrom? (10 * known + (← Text.digitValue? c)) rest
  | c :: rest => do decimalFrom? (10 * known + (← Text.digitValue? c)) rest

/-- The number of digits in base ten, the first of which stands alone; there may not be too many. -/
def decimal? : List Char → Option Nat
  | [] => none
  | c :: rest => do
    if maxDigits < ((c :: rest).filter (· ≠ '_')).length then none
    else decimalFrom? (← Text.digitValue? c) rest

def trim (cs : List Char) : List Char :=
  ((cs.dropWhile Text.isBlank).reverse.dropWhile Text.isBlank).reverse

/-- The number that a text spells in base ten, in the digits of any script. -/
def spelled? (s : String) : Option Int :=
  let cs := trim s.toList
  (decimal? (withoutSign cs)).map fun n => if cs.head? = some '-' then -n else n

/-- The number that a value stands for. -/
def toNumber : OptionValue → Except Fault Int
  | null => .error (.argument (.noNumber null.typeName))
  | flag b => .ok (if b then 1 else 0)
  | number n => .ok n
  | text s =>
    match spelled? s with
    | some n => .ok n
    | none => .error (.argument .notANumber)

end OptionValue

namespace OptionTree

/-- A table counts as true, for it has an entry. -/
def toFlag : OptionTree → Bool
  | value v => v.toFlag
  | table _ => true

/-- The number that a tree stands for; a table stands for none. -/
def toNumber : OptionTree → Except Fault Int
  | value v => v.toNumber
  | table _ => .error (.argument (.noNumber "dict"))

end OptionTree

namespace Options

/-- What stands under a name in a section. -/
def setting? (o : Options) (sectionName name : String) : Option OptionTree :=
  o.option? (.text sectionName) (.text name)

/-- The flag under a name, or its usual value. -/
def flag (o : Options) (sectionName name : String) (usual : Bool) : Bool :=
  ((o.setting? sectionName name).map OptionTree.toFlag).getD usual

/-- The number under a name, or its usual value. -/
def number (o : Options) (sectionName name : String) (usual : Int) : Except Fault Int :=
  match o.setting? sectionName name with
  | none => .ok usual
  | some v => v.toNumber

/-- The bounds of a search for a register value. -/
def registerBounds (o : Options) : Except Fault RegisterBounds := do
  let usual : RegisterBounds := {}
  let name := "acm_policy_status"
  return {
    combinatorial := o.flag name "enable_combinatorial_strategy" usual.combinatorial
    maxFlips := ← o.number name "max_combinatorial_distance" usual.maxFlips
    maxCountdown := ← o.number name "max_linear_distance" usual.maxCountdown }

/-- The bounds of a search for corrections of register zero. -/
def pcr0Bounds (o : Options) : Except Fault Pcr0Bounds := do
  let usual : Pcr0Bounds := {}
  let name := "reproduce_pcr0"
  return {
    toRegisterBounds := ← o.registerBounds
    maxDisabled := ← o.number name "max_disabled_measurements" usual.maxDisabled
    maxSwaps := ← o.number name "max_reorders" usual.maxSwaps }

def reconciliationBounds (o : Options) : Except Fault ReconciliationBounds := do
  let usual : ReconciliationBounds := {}
  return {
    toRegisterBounds := ← o.registerBounds
    maxSkipped :=
      ← o.number "reproduce_event_log" "disabled_events_max_distance" usual.maxSkipped }

/-- The number of steps of a run, as it was written. -/
def maxSteps (o : Options) : OptionTree :=
  (o.setting? "engine" "max_steps").getD (.value (.number Boot.usualMaxSteps))

def settings (o : Options) : Except Fault Text.Json := do
  let acm ← o.registerBounds
  let pcr0 ← o.pcr0Bounds
  let log ← o.reconciliationBounds
  let members (b : RegisterBounds) : List (String × Text.Json) := [
    ("enable_combinatorial_strategy", .bool b.combinatorial),
    ("max_combinatorial_distance", .int b.maxFlips),
    ("max_linear_distance", .int b.maxCountdown)]
  return .object [
    ("acm", .object (members acm)),
    ("pcr0", .object (members pcr0.toRegisterBounds ++ [
      ("max_disabled_measurements", .int pcr0.maxDisabled), ("max_reorders", .int pcr0.maxSwaps)])),
    ("event_log", .object (members log.toRegisterBounds ++ [
      ("disabled_events_max_distance", .int log.maxSkipped)])),
    ("max_steps", o.maxSteps.document)]

end Options
end MeasuredBoot
