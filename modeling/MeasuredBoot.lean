import MeasuredBoot.Action
import MeasuredBoot.Action.Apply
import MeasuredBoot.Actor
import MeasuredBoot.AddressMap
import MeasuredBoot.Artifact
import MeasuredBoot.Boot.Record
import MeasuredBoot.Boot.Run
import MeasuredBoot.Boot.Validation
import MeasuredBoot.ByteRange
import MeasuredBoot.Bytes
import MeasuredBoot.Bytes.LittleEndian
import MeasuredBoot.Condition
import MeasuredBoot.Console
import MeasuredBoot.Data
import MeasuredBoot.EventLog.Binary
import MeasuredBoot.EventLog.EventData
import MeasuredBoot.EventLog.Locality
import MeasuredBoot.EventLog.Reported
import MeasuredBoot.EventLog.Written
import MeasuredBoot.EventType
import MeasuredBoot.Evidence
import MeasuredBoot.Fault
import MeasuredBoot.Fault.Cause
import MeasuredBoot.Fault.Wording
import MeasuredBoot.FileTree
import MeasuredBoot.Firmware.Amd
import MeasuredBoot.Firmware.Image
import MeasuredBoot.Firmware.Intel
import MeasuredBoot.Firmware.Node
import MeasuredBoot.Flow
import MeasuredBoot.Flow.Catalog
import MeasuredBoot.Flow.Shipped
import MeasuredBoot.Guid
import MeasuredBoot.Hash.Algorithm
import MeasuredBoot.Hash.Padding
import MeasuredBoot.Hash.Sha1
import MeasuredBoot.Hash.Sha256
import MeasuredBoot.Hash.Sha512
import MeasuredBoot.Journal
import MeasuredBoot.Options
import MeasuredBoot.Options.Line
import MeasuredBoot.Options.Outline
import MeasuredBoot.Options.Scalar
import MeasuredBoot.Options.Sections
import MeasuredBoot.Part
import MeasuredBoot.Proofs.Action.Atomic
import MeasuredBoot.Proofs.Action.Calm
import MeasuredBoot.Proofs.Action.Evidenced
import MeasuredBoot.Proofs.Action.Issued
import MeasuredBoot.Proofs.Action.Performed
import MeasuredBoot.Proofs.Boot.Applied
import MeasuredBoot.Proofs.Boot.Attributed
import MeasuredBoot.Proofs.Boot.Ceiling
import MeasuredBoot.Proofs.Boot.Covered
import MeasuredBoot.Proofs.Boot.Ending
import MeasuredBoot.Proofs.Boot.Evidenced
import MeasuredBoot.Proofs.Boot.Executed
import MeasuredBoot.Proofs.Boot.Foretold
import MeasuredBoot.Proofs.Boot.IssueFree
import MeasuredBoot.Proofs.Boot.Logged
import MeasuredBoot.Proofs.Boot.Mirrored
import MeasuredBoot.Proofs.Boot.Numbered
import MeasuredBoot.Proofs.Boot.Protected
import MeasuredBoot.Proofs.Boot.Raised
import MeasuredBoot.Proofs.Boot.Regular
import MeasuredBoot.Proofs.Boot.Reported
import MeasuredBoot.Proofs.Boot.Steps
import MeasuredBoot.Proofs.Boot.Trace
import MeasuredBoot.Proofs.Boot.Twin
import MeasuredBoot.Proofs.EventLog.Blobs
import MeasuredBoot.Proofs.EventLog.Fields
import MeasuredBoot.Proofs.EventLog.Reading
import MeasuredBoot.Proofs.EventLog.Records
import MeasuredBoot.Proofs.EventLog.RoundTrip
import MeasuredBoot.Proofs.Flow.Course
import MeasuredBoot.Proofs.Flow.Order
import MeasuredBoot.Proofs.Flow.Stages
import MeasuredBoot.Proofs.Lockstep
import MeasuredBoot.Proofs.Reference.Canonical
import MeasuredBoot.Proofs.Reference.Content
import MeasuredBoot.Proofs.Reference.Covering
import MeasuredBoot.Proofs.Reference.Exclusion
import MeasuredBoot.Proofs.Reference.Mapping
import MeasuredBoot.Proofs.Reference.Numbering
import MeasuredBoot.Proofs.Reference.Ranges
import MeasuredBoot.Proofs.Reproduce.Admissible
import MeasuredBoot.Proofs.Reproduce.Aligned
import MeasuredBoot.Proofs.Reproduce.Alignments
import MeasuredBoot.Proofs.Reproduce.Changed
import MeasuredBoot.Proofs.Reproduce.Classified
import MeasuredBoot.Proofs.Reproduce.Combined
import MeasuredBoot.Proofs.Reproduce.Completeness
import MeasuredBoot.Proofs.Reproduce.Consistency
import MeasuredBoot.Proofs.Reproduce.Corrected
import MeasuredBoot.Proofs.Reproduce.DataStep
import MeasuredBoot.Proofs.Reproduce.Encoding
import MeasuredBoot.Proofs.Reproduce.Explained
import MeasuredBoot.Proofs.Reproduce.Legible
import MeasuredBoot.Proofs.Reproduce.Matching
import MeasuredBoot.Proofs.Reproduce.Noninterference
import MeasuredBoot.Proofs.Reproduce.Pairing
import MeasuredBoot.Proofs.Reproduce.Recorded
import MeasuredBoot.Proofs.Reproduce.Recovery
import MeasuredBoot.Proofs.Reproduce.Replays
import MeasuredBoot.Proofs.Reproduce.RoundTrip
import MeasuredBoot.Proofs.Reproduce.Sanitized
import MeasuredBoot.Proofs.Reproduce.Soundness
import MeasuredBoot.Proofs.Reproduce.Staged
import MeasuredBoot.Proofs.Reproduce.Tandem
import MeasuredBoot.Proofs.Reproduce.Tracing
import MeasuredBoot.Proofs.Reproduce.Unexpected
import MeasuredBoot.Proofs.Reproduce.Unmodified
import MeasuredBoot.Proofs.Runs
import MeasuredBoot.Proofs.Search.BitFlips
import MeasuredBoot.Proofs.Search.Combinations
import MeasuredBoot.Proofs.Search.Enumeration
import MeasuredBoot.Proofs.Search.FirstAnswer
import MeasuredBoot.Proofs.Search.Flips
import MeasuredBoot.Proofs.Search.Nearest
import MeasuredBoot.Proofs.Search.Register
import MeasuredBoot.Proofs.Search.Reorder
import MeasuredBoot.Proofs.Search.Schedules
import MeasuredBoot.Proofs.Search.Workers
import MeasuredBoot.Proofs.Source.Blind
import MeasuredBoot.Proofs.Source.MessageRegisters
import MeasuredBoot.Proofs.Source.Nodes
import MeasuredBoot.Proofs.Source.Volumes
import MeasuredBoot.Proofs.Step.Effect
import MeasuredBoot.Proofs.Step.Limits
import MeasuredBoot.Proofs.Step.Pcr0Data
import MeasuredBoot.Proofs.Step.Produced
import MeasuredBoot.Proofs.Step.Twin
import MeasuredBoot.Proofs.Tpm.Accepted
import MeasuredBoot.Proofs.Tpm.Alike
import MeasuredBoot.Proofs.Tpm.Announced
import MeasuredBoot.Proofs.Tpm.Calls
import MeasuredBoot.Proofs.Tpm.Mirrored
import MeasuredBoot.Proofs.Tpm.Replay
import MeasuredBoot.Proofs.Tpm.Started
import MeasuredBoot.Proofs.Tpm.Table
import MeasuredBoot.Reference
import MeasuredBoot.Register
import MeasuredBoot.Reproduce.Alignment
import MeasuredBoot.Reproduce.Corrections
import MeasuredBoot.Reproduce.Discrepancy
import MeasuredBoot.Reproduce.Explanation
import MeasuredBoot.Reproduce.Pcr0
import MeasuredBoot.Reproduce.Reconciled
import MeasuredBoot.Reproduce.Reconciliation
import MeasuredBoot.Reproduce.Sanitize
import MeasuredBoot.Reproduce.Traced
import MeasuredBoot.Search.BitFlips
import MeasuredBoot.Search.Combination
import MeasuredBoot.Search.Register
import MeasuredBoot.Search.Reorder
import MeasuredBoot.Settings
import MeasuredBoot.Source
import MeasuredBoot.Source.Resolve
import MeasuredBoot.State
import MeasuredBoot.Step
import MeasuredBoot.Step.Actions
import MeasuredBoot.Text.Blank
import MeasuredBoot.Text.Bounds
import MeasuredBoot.Text.Cased
import MeasuredBoot.Text.DecimalDigit
import MeasuredBoot.Text.Json
import MeasuredBoot.Text.LowerCase
import MeasuredBoot.Text.Printable
import MeasuredBoot.Text.Quoted
import MeasuredBoot.Text.Radix
import MeasuredBoot.Tpm
import MeasuredBoot.Tpm.Command
import MeasuredBoot.Tpm.EventLog
