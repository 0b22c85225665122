import MeasuredBoot.Action

/-!
# TPM commands

The three commands which a simulated TPM understands, and the log of the commands it was given. A
command that adds to the event log does not change a register; the extend beside it does.
-/
namespace MeasuredBoot

/-- An entry of an event log. -/
structure EventEntry where
  pcr : Int
  algorithm : Algorithm
  digest : Bytes
  type : EventType
  data : Option Bytes
deriving DecidableEq

namespace EventEntry

def text (e : EventEntry) : String :=
  "PCR: " ++ Text.decimal e.pcr ++ ", Algo: " ++ e.algorithm.name ++ ", Digest: " ++ e.digest.toHex
    ++ ", Type: " ++ e.type.name
    ++ (match e.data with
        | none | some [] => ""
        | some b => ", Data: 0x" ++ b.toHexUpper)

/-- The entry with the names of its fields. -/
def fieldsText (e : EventEntry) : String :=
  "EventLogEntry(pcr_index=" ++ Text.decimal e.pcr ++ ", hash_algo=" ++ Text.decimal e.algorithm.code
    ++ ", digest=" ++ Text.quotedBytes e.digest ++ ", event_type=" ++ Text.decimal e.type.code
    ++ ", data=" ++ Text.optional Text.quotedBytes e.data ++ ")"

end EventEntry

/-- A command for a TPM. -/
inductive Command where
  | init (locality : Int)
  | extend (pcr : Int) (a : Algorithm) (digest : Bytes)
  | logEvent (e : EventEntry)
deriving DecidableEq

namespace Command

def text : Command → String
  | init locality => "TPMInit(" ++ Text.decimal locality ++ ")"
  | extend pcr a digest =>
    "TPMExtend(" ++ Text.decimal pcr ++ ", " ++ a.name ++ ", " ++ digest.toHex ++ ")"
  | logEvent e =>
    "TPMEventLogAdd(" ++ Text.decimal e.pcr ++ ", " ++ e.algorithm.name ++ ", " ++ e.digest.toHex
      ++ ", Type: " ++ e.type.name
      ++ (match e.data with
          | none => ""
          | some b => ", Data: 0x" ++ b.toHexUpper)
      ++ ")"

def document : Command → Text.Json
  | init locality => .object [("command", .str "init"), ("locality", .int locality)]
  | extend pcr a digest => .object [
      ("command", .str "extend"), ("pcr", .int pcr), ("hash_algo", .str a.name),
      ("digest", .str digest.toHex)]
  | logEvent e => .object [
      ("command", .str "event_log_add"), ("pcr", .int e.pcr), ("hash_algo", .str e.algorithm.name),
      ("digest", .str e.digest.toHex), ("event_type", .str e.type.name),
      ("data", .ofText? (e.data.map Bytes.toHex))]

/-- The extend that belongs to an entry of the event log. -/
def ofEvent (e : EventEntry) : Command := extend e.pcr e.algorithm e.digest

/-- The extend that belongs to a command, if it logs an event. -/
def asExtend? : Command → Option Command
  | logEvent e => some (ofEvent e)
  | _ => none

/-- The texts of commands on one line. -/
def texts (cs : List Command) : String := ", ".intercalate (cs.map text)

end Command

/-- A command with its cause: the place of the action and the action itself, where known. -/
structure CommandRecord where
  command : Command
  place : Option Coordinates
  action : Option IssuedAction

namespace CommandRecord

def document (r : CommandRecord) : Text.Json := .object [
  ("command", .str r.command.text), ("coordinates", .ofText? (r.place.map Coordinates.text)),
  ("action", .ofText? (r.action.map fun a => a.action.text))]

def lines (records : List CommandRecord) : String :=
  String.join (records.zipIdx.map fun (r, i) =>
    Text.decimal i ++ ". " ++ r.command.text ++ "\n")

end CommandRecord
end MeasuredBoot
