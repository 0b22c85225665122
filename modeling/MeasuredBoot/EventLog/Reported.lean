import MeasuredBoot.EventLog.Locality
import MeasuredBoot.EventType
import MeasuredBoot.Tpm.EventLog

/-!
# Reported events

The events of a log that firmware has reported. Other than a simulated event, a reported one may be
without a digest, and always has data. Replaying the log starts from the locality that it reports and
passes over events that stand for no action.
-/
namespace MeasuredBoot

/-- A digest with its algorithm. -/
structure Digest where
  algorithm : Algorithm
  value : Bytes
deriving DecidableEq

/-- An event of a reported log. -/
structure ReportedEvent where
  pcr : Int
  type : EventType
  data : Bytes
  digest : Option Digest
deriving DecidableEq

namespace ReportedEvent

def digestText (e : ReportedEvent) : String :=
  match e.digest with
  | none => "-"
  | some d => d.algorithm.name ++ ":" ++ d.value.toHex

def text (e : ReportedEvent) : String :=
  "PCR: " ++ Text.decimal e.pcr ++ "\ttype: " ++ e.type.name ++ "\tsize: 0x"
    ++ Text.lowerHexDigits e.data.length ++ "\tdigest: " ++ e.digestText

def bracketedText (e : ReportedEvent) : String := "<TPMEvent " ++ e.text ++ ">"

/-- True of an event of a register with a digest of an algorithm. -/
def isOf (pcr : Int) (a : Algorithm) (e : ReportedEvent) : Bool :=
  e.pcr = pcr && e.digest.any (·.algorithm = a)

/-- The value of the digest, empty without one. -/
def digestValue (e : ReportedEvent) : Bytes := (e.digest.map Digest.value).getD []

/-- The digest of an event that has one; without one, the attribute that is asked of it is missing. -/
def givenDigest (name : String) (e : ReportedEvent) : Except Fault Digest :=
  match e.digest with
  | some d => .ok d
  | none => .error (.argument (.noDigest name))

/-- The event as an entry of a simulated log, if it has a digest. -/
def entry? (e : ReportedEvent) : Option EventEntry :=
  e.digest.map fun d => ⟨e.pcr, d.algorithm, d.value, e.type, some e.data⟩

end ReportedEvent

abbrev ReportedLog := List ReportedEvent

namespace ReportedLog

/-- The events of a register with a digest of an algorithm. -/
def filterEvents (l : ReportedLog) (pcr : Int) (a : Algorithm) : ReportedLog :=
  l.filter (ReportedEvent.isOf pcr a)

/-- True of an event that reports the startup locality. -/
def reportsLocality (e : ReportedEvent) : Bool :=
  e.pcr = 0 && e.type = .noAction && Locality.isReport e.data

/-- The locality which the first such event reports, zero without one. -/
def startupLocality (l : ReportedLog) : Except Fault Int :=
  match l.find? reportsLocality with
  | none => .ok 0
  | some e => do
    let x ← Locality.decode e.data
    return x.toNat

/-- The value of register zero after the log. -/
def replay (l : ReportedLog) (pcr : Int) (a : Algorithm) : Except Fault Bytes := do
  if pcr ≠ 0 then throw (.tpm .replayOfOtherPcr)
  match a.function? with
  | none => throw (.tpm (.notHashable a))
  | some f =>
    let value ← EventLog.startValue f.digestSize (← l.startupLocality)
    let events := (l.filterEvents pcr a).filter fun e => e.type ≠ .noAction
    return EventLog.extendAll f value (events.map ReportedEvent.digestValue)

end ReportedLog
end MeasuredBoot
