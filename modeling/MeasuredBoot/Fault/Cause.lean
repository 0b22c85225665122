import MeasuredBoot.ByteRange
import MeasuredBoot.Hash.Algorithm
import MeasuredBoot.Part

/-!
# Causes of faults

Everything that can go wrong, by cause. Causes are grouped by what could not be done; a cause holds what
its wording needs and nothing else.
-/
namespace MeasuredBoot

/-- An address map does not reach a range. -/
inductive MappingFault where
  | biosRegions (found : Nat)
  | notAnImage (artifact : String)
  | outsideMapping (range : ByteRange) (base : Int)
  | outsideRegion (range region : ByteRange)

/-- A blob cannot be read at the asked place. -/
inductive ReadFault where
  | outOfBounds (name : String) (offset length : Int) (size : Nat)
  | unaligned (offset : Int) (register : String) (start : Int)
  | pastRegister (length : Int) (register : String) (size : Int)
  | noTxtRegister (offset : Int)
  | noAmdRegister (offset : Int)
  | pastAmdRegisters (offset length : Int) (size : Nat)
  | short (range : ByteRange) (artifact : String) (got : Nat)

/-- A value cannot be written into its field. -/
inductive EncodingFault where
  | widthOutOfRange
  | negativeWidth
  | widthTooLarge
  | negativeValue
  | tooWide
  | localityInRegister
  | localityInEvent
  | notEightBytes

/-- A data value cannot be built. -/
inductive DataFault where
  | literalWithReferences
  | literalWithConverter

/-- A data source resolves to nothing, to too much, or cannot be composed. -/
inductive SourceFault where
  | unknownVariable (name : String)
  | noVariableParser
  | noVolumes (guids : String)
  | noVolumeOf (range : ByteRange)
  | noFit
  | noFitEntry (type : String)
  | noBootPolicy
  | noPolicyStatus
  | noPspFirmware
  | noEmbeddedFirmware
  | noPspVersion
  | noMessageRegisters
  | severalPolicyStatus (count : Nat)
  | literalIn (source : String)
  | convertedIn (source : String)
  | foreignReference (reference : String)

/-- A part is missing from a state, is there already, or is no part at all. -/
inductive StateFault where
  | absent (part : Part)
  | duplicate (part : Part)
  | notAnArtifact (kind : String)
  | notASubsystem (kind : String)

/-- A flow is unknown, or its name is taken. -/
inductive FlowFault where
  | unknown (name : String)
  | registered (key : String)
  | noFlow
  | noSuchStep

/-- A TPM refuses a command. -/
inductive TpmFault where
  | alreadyInitialized
  | notInitialized (pcr : Int) (algorithm : Algorithm)
  | unsupportedPcr (pcr : Int)
  | replayOfOtherPcr
  | notHashable (algorithm : Algorithm)
  | notSupported (algorithm : Algorithm)
  | missingBank (pcr : Int) (algorithm : Algorithm)

/-- The bytes of an event log, or of one of its events, cannot be read. -/
inductive LogFault where
  | truncated (expected got : Nat)
  | truncatedHeader
  | shortSpecId (needed field offset size : Nat)
  | unknownDigest (algorithm : Nat)
  | notStartupLocality (data : Bytes)
  | otherPcr (pcr : Int)
  | otherType (type : String)

/-- A search has bad bounds or cannot go on. -/
inductive SearchFault where
  | distances (low high : Int)
  | tooManyCombinations
  | workers (faults : String)
  | combinationId (id n k : Int)
  | registerWidth (bits : Nat)
  | notPcr0Data (command : String)
  | pcr0DataWithoutReferences
  | noEventLog
  | unknownCause (record : String)
  | measuredTwice (action : String)
  | loggedCount (seen logged : Nat)
  | unloggedMeasurements (records : String)
  | unequalMeasurements (records events : String)
  | unequalLogs
  | noAlignment
  | inconsistent (result digest : String)

/-- An argument is outside what an operation is defined for. -/
inductive ArgumentFault where
  | itemWidth (bytes : Nat) (width : Int)
  | lowestDistance (distance : Int) (bits : Nat)
  | negativeCount (count : String)
  | tooManyFactors
  | notInList (index : Int)
  | position (container : String)
  | nullInPath
  | notANumber
  | noNumber (type : String)
  | textForTable
  | valueForTable (type : String)
  | mixedNames
  | noDigest (name : String)
  | refused (message : String)
  | check (message : String)

/-- What a validator finds in a log. -/
inductive ValidationFault where
  | unresolved (what references cause : String)
  | noExecutables (cause : String)
  | unprotectedActor (message : String)
  | incompleteCoverage (message : String)

/-- Options that cannot be used. -/
inductive OptionFault where
  | unreadable
  | unknownHeuristic (name available : String)

end MeasuredBoot
