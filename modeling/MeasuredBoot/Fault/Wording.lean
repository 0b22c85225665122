import MeasuredBoot.Fault.Cause

/-!
# The wording of faults

The message of each cause and, for groups whose causes differ in it, the word under which reports name the
cause.
-/
namespace MeasuredBoot

namespace MappingFault

def message : MappingFault → String
  | biosRegions n => "Expected exactly one BIOS region, but found " ++ Text.decimal n
  | notAnImage a => "Artifact " ++ a ++ " is not a BIOSImage"
  | outsideMapping r base =>
    "Physical range " ++ r.text ++ " is outside of the mapped BIOS region 0x" ++ Text.hex base
      ++ ":0x100000000"
  | outsideRegion r region =>
    "Image range " ++ r.text ++ " is outside of the BIOS region " ++ region.text

end MappingFault

namespace ReadFault

def message : ReadFault → String
  | outOfBounds name offset length size =>
    "Read out of bounds of " ++ name ++ ": " ++ (ByteRange.mk offset length).text ++ " (size 0x"
      ++ Text.hex size ++ ")"
  | unaligned offset register start =>
    "Read at 0x" ++ Text.hex offset ++ " is not aligned with register " ++ register ++ " at 0x"
      ++ Text.hex start
  | pastRegister length register size =>
    "Read of " ++ Text.decimal length ++ " bytes exceeds register " ++ register ++ " ("
      ++ Text.decimal size ++ " bytes)"
  | noTxtRegister offset => "No TXT register at offset 0x" ++ Text.hex offset
  | noAmdRegister offset => "No AMD register at offset " ++ Text.decimal offset
  | pastAmdRegisters offset length size =>
    "Read of " ++ (ByteRange.mk offset length).text ++ " exceeds the AMD registers (0x"
      ++ Text.hex size ++ " bytes)"
  | short r artifact got =>
    "Short read of " ++ r.text ++ " from " ++ artifact ++ ": got " ++ Text.decimal got ++ " bytes"

end ReadFault

namespace EncodingFault

def kind : EncodingFault → String
  | negativeWidth | localityInRegister | localityInEvent => "ValueError"
  | widthOutOfRange | widthTooLarge | negativeValue | tooWide => "OverflowError"
  | notEightBytes => "error"

def message : EncodingFault → String
  | widthOutOfRange => "Python int too large to convert to C ssize_t"
  | negativeWidth => "length argument must be non-negative"
  | widthTooLarge => "byte string is too large"
  | negativeValue => "can't convert negative int to unsigned"
  | tooWide => "int too big to convert"
  | localityInRegister => "byte must be in range(0, 256)"
  | localityInEvent => "bytes must be in range(0, 256)"
  | notEightBytes => "unpack requires a buffer of 8 bytes"

end EncodingFault

namespace DataFault

def message : DataFault → String
  | literalWithReferences => "Data cannot hold both literal bytes and references"
  | literalWithConverter => "Literal bytes cannot be passed through a converter"

end DataFault

namespace SourceFault

def kind : SourceFault → String
  | severalPolicyStatus _ => "AmbiguousMatch"
  | literalIn _ | convertedIn _ | foreignReference _ => "UnsupportedComposition"
  | _ => "SourceNotFound"

def message : SourceFault → String
  | unknownVariable name => "Unknown PCD variable '" ++ name ++ "'"
  | noVariableParser => "No PCD parser is defined for this firmware"
  | noVolumes guids => "No volumes with GUIDs " ++ guids ++ " found"
  | noVolumeOf r => "Unable to find the volume for range " ++ r.text
  | noFit => "The BIOS image has no Intel FIT"
  | noFitEntry type => "Unable to find FIT entry of type " ++ type
  | noBootPolicy => "Boot Policy Manifest is not found"
  | noPolicyStatus => "ACM_POLICY_STATUS register is not in the TXT public space snapshot"
  | noPspFirmware => "The BIOS image has no AMD PSP firmware"
  | noEmbeddedFirmware => "Embedded firmware structure is not found"
  | noPspVersion => "PSP version not found"
  | noMessageRegisters => "Neither MP0_C2P_MSG_37 nor MP0_C2P_MSG_38 is present"
  | severalPolicyStatus n =>
    Text.decimal n ++ " ACM_POLICY_STATUS registers in the TXT public space snapshot"
  | literalIn source => "Data source " ++ source ++ " does not support literal bytes"
  | convertedIn source => "Data source " ++ source ++ " does not support converted data"
  | foreignReference r => "Reference " ++ r ++ " does not point to the BIOS image"

end SourceFault

namespace StateFault

/-- A part with its verb, as the message about its absence begins. -/
def subject : Part → String
  | .biosImage => "BIOS image is"
  | .txtPublic => "TXT public registers are"
  | .amdRegisters => "AMD registers are"
  | .tpm => "TPM is"
  | .pch => "PCH is"
  | .psp => "PSP is"

def kind : StateFault → String
  | absent part => if part.isArtifact then "ArtifactNotFound" else "SubsystemNotFound"
  | duplicate _ => "DuplicateSubsystem"
  | notAnArtifact _ => "ArtifactNotFound"
  | notASubsystem _ => "SubsystemNotFound"

def message : StateFault → String
  | absent part => subject part ++ " not included into the state"
  | duplicate part => part.kindName ++ " is already included into the state"
  | notAnArtifact kind => "Unknown kind " ++ kind
  | notASubsystem kind => "Unknown kind " ++ kind

end StateFault

namespace FlowFault

def kind : FlowFault → String
  | unknown _ => "UnknownFlowError"
  | registered _ => "FlowRegistrationError"
  | noFlow => "AttributeError"
  | noSuchStep => "IndexError"

def message : FlowFault → String
  | unknown name => "unknown flow '" ++ name ++ "'"
  | registered key => "flow '" ++ key ++ "' is already registered"
  | noFlow => "'NoneType' object has no attribute 'steps'"
  | noSuchStep => "list index out of range"

end FlowFault

namespace TpmFault

def kind : TpmFault → String
  | alreadyInitialized => "TPMAlreadyInitializedError"
  | notInitialized .. => "TPMNotInitializedError"
  | unsupportedPcr _ | replayOfOtherPcr => "UnsupportedPCRError"
  | notHashable _ | notSupported _ => "UnsupportedHashAlgorithmError"
  | missingBank .. => "KeyError"

def message : TpmFault → String
  | alreadyInitialized => "TPM is already initialized"
  | notInitialized pcr a => "PCR " ++ Text.decimal pcr ++ ":" ++ a.name ++ " is not initialized"
  | unsupportedPcr pcr => "PCR " ++ Text.decimal pcr ++ " is not supported"
  | replayOfOtherPcr => "Currently only replay of PCR0 is supported"
  | notHashable a => "Unsupported hash algorithm: " ++ a.name
  | notSupported a => "Hash algorithm " ++ a.name ++ " is not supported by the TPM"
  | missingBank pcr a => "(" ++ Text.decimal pcr ++ ", " ++ Text.decimal a.code ++ ")"

end TpmFault

namespace LogFault

def message : LogFault → String
  | truncated expected got =>
    "Truncated event log: expected " ++ Text.decimal expected ++ " bytes, got " ++ Text.decimal got
  | truncatedHeader => "Truncated event header"
  | shortSpecId needed field offset size =>
    "Invalid Spec ID event: unpack_from requires a buffer of at least " ++ Text.decimal needed
      ++ " bytes for unpacking " ++ Text.decimal field ++ " bytes at offset " ++ Text.decimal offset
      ++ " (actual buffer size is " ++ Text.decimal size ++ ")"
  | unknownDigest a => "Unknown digest algorithm 0x" ++ Text.paddedHex 4 a ++ " in event"
  | notStartupLocality data => "Not a StartupLocality event: 0x" ++ data.toHex
  | otherPcr pcr => "Parsing event data of PCR" ++ Text.decimal pcr ++ " is not supported"
  | otherType type => "Parsing event data of " ++ type ++ " is not supported"

end LogFault

namespace SearchFault

def kind : SearchFault → String
  | inconsistent .. => "ReplayConsistencyError"
  | _ => "BruteForceError"

def message : SearchFault → String
  | distances low high =>
    "minimal distance (" ++ Text.decimal low ++ ") is higher than maximal distance ("
      ++ Text.decimal high ++ ")"
  | tooManyCombinations => "distance is too high (amount of combinations causes an overflow)"
  | workers faults => "workers had errors: " ++ faults
  | combinationId id n k =>
    "Combination ID " ++ Text.decimal id ++ " is out of range for C(" ++ Text.decimal n ++ ", "
      ++ Text.decimal k ++ ")"
  | registerWidth bits =>
    "ACM_POLICY_STATUS register is expected to be 64 bits, but it is " ++ Text.decimal bits ++ " bits"
  | notPcr0Data command => "The command " ++ command ++ " is not caused by a PCR0_DATA measurement"
  | pcr0DataWithoutReferences => "PCR0_DATA has no references"
  | noEventLog => "TPM EventLog is not provided"
  | unknownCause record => "internal error: the action of " ++ record ++ " is unknown"
  | measuredTwice action => "internal error: the action " ++ action ++ " measured twice"
  | loggedCount seen logged =>
    "internal error: " ++ Text.decimal seen ++ " != " ++ Text.decimal logged
  | unloggedMeasurements records =>
    "measurements " ++ records ++ " have no EventLog entries, this case is not supported"
  | unequalMeasurements records events =>
    "do not know how to map measurements " ++ records ++ " with log entries " ++ events
  | unequalLogs => "internal error: unequal amounts of events and measurements after skipping"
  | noAlignment => "unable to align the event logs"
  | inconsistent result digest =>
    result ++ " does not reproduce the expected PCR0 " ++ digest

end SearchFault

namespace ArgumentFault

def kind : ArgumentFault → String
  | position _ => "IndexError"
  | noNumber _ | valueForTable _ | mixedNames => "TypeError"
  | noDigest _ => "AttributeError"
  | check _ => "RuntimeError"
  | tooManyFactors => "OverflowError"
  | _ => "ValueError"

def message : ArgumentFault → String
  | itemWidth bytes width =>
    Text.decimal bytes ++ " bytes are not a whole number of " ++ Text.decimal width ++ "-bit items"
  | lowestDistance distance bits =>
    "minimal distance " ++ Text.decimal distance ++ " is outside of 0.." ++ Text.decimal bits
  | negativeCount count => count ++ " must be a non-negative integer"
  | tooManyFactors => "min(n - k, k) must not exceed 9223372036854775807"
  | notInList i => Text.decimal i ++ " is not in list"
  | position container => container ++ " index out of range"
  | nullInPath => "embedded null byte"
  | notANumber => "the text is not a number"
  | noNumber type =>
    "int() argument must be a string, a bytes-like object or a real number, not '" ++ type ++ "'"
  | textForTable => "dictionary update sequence element #0 has length 1; 2 is required"
  | valueForTable type => "'" ++ type ++ "' object is not iterable"
  | mixedNames => "texts and other names have no common order"
  | noDigest name => "'NoneType' object has no attribute '" ++ name ++ "'"
  | refused message => message
  | check message => message

end ArgumentFault

namespace ValidationFault

def kind : ValidationFault → String
  | unresolved .. | noExecutables _ => "RuntimeError"
  | unprotectedActor _ => "ActorNotProtected"
  | incompleteCoverage _ => "CoverageIncomplete"

def message : ValidationFault → String
  | unresolved what references cause =>
    "unable to resolve the " ++ what ++ " references " ++ references ++ ": " ++ cause
  | noExecutables cause => "unable to get UEFI files: " ++ cause
  | unprotectedActor message => message
  | incompleteCoverage message => message

end ValidationFault

namespace OptionFault

def message : OptionFault → String
  | unreadable => "the options cannot be read"
  | unknownHeuristic name available =>
    "Unknown command log heuristic '" ++ name ++ "'; available: " ++ available

end OptionFault

end MeasuredBoot
