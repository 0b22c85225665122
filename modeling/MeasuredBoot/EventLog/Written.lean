import MeasuredBoot.EventLog.Binary

/-!
# Written event logs

The bytes of the records of a log, and the events for which each record stands. Only the layout is
decided here: a number that does not fit its field loses its high bytes, and whether a digest has the
declared size is left to the caller.
-/
namespace MeasuredBoot.BinaryLog

def writeData (b : Bytes) : Bytes := Bytes.ofNatLE 4 b.length ++ b

/-- A record with a single digest, of SHA-1. -/
structure LegacyRecord where
  pcr : Nat
  type : Nat
  digest : Bytes
  data : Bytes

namespace LegacyRecord

def bytes (r : LegacyRecord) : Bytes :=
  Bytes.ofNatLE 4 r.pcr ++ Bytes.ofNatLE 4 r.type ++ r.digest ++ writeData r.data

def event (r : LegacyRecord) : ReportedEvent := ⟨r.pcr, ⟨r.type⟩, r.data, some ⟨.sha1, r.digest⟩⟩

@[simp] theorem length_bytes (r : LegacyRecord) :
    r.bytes.length = 12 + r.digest.length + r.data.length := by
  simp only [bytes, writeData, List.length_append, Bytes.length_ofNatLE]
  omega

end LegacyRecord

/-- A record with counted digests, each after the number of its algorithm. -/
structure AgileRecord where
  pcr : Nat
  type : Nat
  digests : List (Nat × Bytes)
  data : Bytes

namespace AgileRecord

def bytes (r : AgileRecord) : Bytes :=
  Bytes.ofNatLE 4 r.pcr ++ Bytes.ofNatLE 4 r.type ++ Bytes.ofNatLE 4 r.digests.length
    ++ r.digests.flatMap (fun (a, d) => Bytes.ofNatLE 2 a ++ d) ++ writeData r.data

def events (r : AgileRecord) : ReportedLog :=
  spread r.pcr ⟨r.type⟩ r.data (r.digests.map fun (a, d) => ⟨⟨a⟩, d⟩)

end AgileRecord

/-- What a log says about itself in its first record: eight bytes about the platform and the version,
the sizes of the digests, and data of the vendor. -/
structure Specification where
  platform : Bytes
  sizes : DigestSizes
  vendor : Bytes

namespace Specification

def data (s : Specification) : Bytes :=
  specSignature ++ s.platform ++ Bytes.ofNatLE 4 s.sizes.length
    ++ s.sizes.flatMap (fun (a, size) => Bytes.ofNatLE 2 a ++ Bytes.ofNatLE 2 size) ++ s.vendor

/-- The record that holds the specification; its digest is all zeros. -/
def record (s : Specification) : LegacyRecord :=
  ⟨0, EventType.noAction.code.toNat, Bytes.zeros 20, s.data⟩

/-- The event of that record has no digest. -/
def event (s : Specification) : ReportedEvent := ⟨0, .noAction, s.data, none⟩

end Specification

/-- The bytes of a log whose records have a single digest. -/
def writeLegacy (records : List LegacyRecord) : Bytes := records.flatMap LegacyRecord.bytes

/-- The bytes of a log that declares its algorithms. -/
def writeAgile (s : Specification) (records : List AgileRecord) : Bytes :=
  s.record.bytes ++ records.flatMap AgileRecord.bytes

end MeasuredBoot.BinaryLog
