import MeasuredBoot.Fault

/-!
# Startup locality

Firmware reports the locality at which a TPM was started by an event without digest, whose data are a
fixed signature and the locality as one byte. Statement here: what is written is read back.
-/
namespace MeasuredBoot.Locality

/-- What the data of the event begin with. -/
def signature : Bytes := Bytes.ofLatin "StartupLocality" ++ [0]

/-- True of data that begin with the signature. -/
def isReport (data : Bytes) : Bool := signature.isPrefixOf data

def encode (locality : UInt8) : Bytes := signature ++ [locality]

/-- The locality in the data; further bytes do not matter. -/
def decode (data : Bytes) : Except Fault UInt8 :=
  match isReport data, data[signature.length]? with
  | true, some x => .ok x
  | _, _ => .error (.log (.notStartupLocality data))

theorem decode_encode (x : UInt8) : decode (encode x) = .ok x := by
  have h : isReport (encode x) = true := List.isPrefixOf_iff_prefix.mpr ⟨[x], rfl⟩
  simp only [decode, h]
  simp [encode]

end MeasuredBoot.Locality
