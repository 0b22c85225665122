import MeasuredBoot.Reproduce.Explanation
import MeasuredBoot.Reproduce.Traced

/-!
# Discrepancies

The differences between a simulated boot and a reported log, each with what is known about it.
-/
namespace MeasuredBoot

/-- A difference between a simulated boot and a reported log. -/
inductive Discrepancy where
  | unexpectedEntry (index : Nat) (x : Explanation)
  | missingEntry (index : Nat) (c : TracedEntry)
  | otherDigest (index : Nat) (c : TracedEntry) (x : Explanation)
  | registerChanged (old new : Bytes)
  | dataMismatch (calculated : Bytes) (e : ReportedEvent)

namespace Discrepancy

/-- The word under which reports name the difference. -/
def kind : Discrepancy → String
  | unexpectedEntry .. => "IssueUnexpectedLogEntry"
  | missingEntry .. => "IssueMissingLogEntry"
  | otherDigest .. => "IssueLoggedDigestDoesNotMatch"
  | registerChanged .. => "IssueACMPolicyStatusChanged"
  | dataMismatch .. => "IssuePCR0DataMismatch"

/-- The position in the aligned logs, for a difference about one pair. -/
def index? : Discrepancy → Option Nat
  | unexpectedEntry i _ | missingEntry i _ | otherDigest i _ _ => some i
  | _ => none

def measurementText (c : TracedEntry) : String :=
  Text.optional (Evidence.text Evidence.measuredKind) c.measurement

def explanationText (x : Explanation) : String := " (explanation: " ++ x.text ++ ")"

def text : Discrepancy → String
  | unexpectedEntry i x =>
    "unexpected entry in EventLog at index " ++ Text.decimal i ++ ": " ++ x.event.text
      ++ explanationText x
  | missingEntry _ c =>
    "missing entry (for measurement '" ++ measurementText c
      ++ "') in EventLog (expected event type is: " ++ c.entry.type.name ++ ")"
  | otherDigest i c x =>
    "EventLog entry " ++ Text.decimal i ++ " digest 0x" ++ x.event.digestValue.toHexUpper
      ++ " does not match the calculated digest 0x" ++ c.entry.digest.toHexUpper ++ " of "
      ++ measurementText c ++ explanationText x
  | registerChanged old new =>
    "changed ACM_POLICY_STATUS from " ++ old.toHexUpper ++ " to " ++ new.toHexUpper
  | dataMismatch calculated e =>
    "PCR0_DATA measurement does not match the digest reported in EventLog and unable to brute force a "
      ++ "possible bitflip: calculated:" ++ calculated.toHexUpper ++ " != given:0x"
      ++ e.digestValue.toHexUpper

def document (d : Discrepancy) : Text.Json := .object [
  ("kind", .str d.kind), ("str", .str d.text), ("index", .ofOption (fun n => .int n) d.index?)]

end Discrepancy

end MeasuredBoot
