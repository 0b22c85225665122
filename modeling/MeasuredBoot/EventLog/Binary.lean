import MeasuredBoot.EventLog.Reported
import MeasuredBoot.Journal

/-!
# The binary form of a reported log

A log is a sequence of records. A legacy record is a register, a type, a digest of 20 bytes and data with
their length in front. If the first record is a specification event, its data declare the algorithms of
the log and the sizes of their digests, and all further records hold a counted list of digests instead of
the single one. A record with several digests stands for as many events, one without digests for one.

Reading ends at the end of the bytes or at the first record that is cut short or names an algorithm which
was not declared.
-/
namespace MeasuredBoot.BinaryLog

/-- What the data of a specification event begin with. -/
def specSignature : Bytes := Bytes.ofLatin "Spec ID Event03" ++ [0]

/-- The declared algorithms with the sizes of their digests; of one algorithm, the last size counts. -/
abbrev DigestSizes := List (Nat × Nat)

def declare (algorithm size : Nat) : DigestSizes → DigestSizes
  | [] => [(algorithm, size)]
  | (a, s) :: rest =>
    if a = algorithm then (a, size) :: rest else (a, s) :: declare algorithm size rest

/-- What is known while a log is read: the bytes ahead, and the declarations of a log that has them. -/
structure Reader where
  rest : Bytes
  sizes : Option DigestSizes := none
  isFirst : Bool := true

/-- The next `size` bytes and what follows them. -/
def take (size : Nat) (b : Bytes) : Except Fault (Bytes × Bytes) :=
  let chunk := b.take size
  if chunk.length = size then .ok (chunk, b.drop size)
  else .error (.log (.truncated size chunk.length))

/-- The next bytes as a number, and what follows them. -/
def takeNumber (width : Nat) (b : Bytes) : Except Fault (Nat × Bytes) := do
  let (chunk, rest) ← take width b
  return (chunk.toNatLE, rest)

def takeData (b : Bytes) : Except Fault (Bytes × Bytes) := do
  let (size, rest) ← takeNumber 4 b
  take size rest

/-- A number inside the data of a specification event. -/
def fieldAt (data : Bytes) (offset width : Nat) : Except Fault Bytes :=
  if data.length < offset + width then
    .error (.log (.shortSpecId (offset + width) width offset data.length))
  else .ok ((data.drop offset).take width)

/-- Reads `count` declarations from an offset on. -/
def readSizes (data : Bytes) : (count offset : Nat) → DigestSizes → Except Fault DigestSizes
  | 0, _, sizes => .ok sizes
  | count + 1, offset, sizes => do
    let field ← fieldAt data offset 4
    readSizes data count (offset + 4)
      (declare (Bytes.toNatLE (field.take 2)) (Bytes.toNatLE (field.drop 2)) sizes)

/-- Where the count of declarations stands: after the signature, the platform class and four bytes. -/
def countOffset : Nat := specSignature.length + 8

def parseSpec (data : Bytes) : Except Fault DigestSizes := do
  let field ← fieldAt data countOffset 4
  readSizes data field.toNatLE (countOffset + 4) []

/-- The events of a record with a digest of SHA-1, or of a specification event. -/
def readLegacy (r : Reader) : Except Fault (List ReportedEvent × Reader) := do
  if r.rest.isEmpty then return ([], r)
  let header := r.rest.take 32
  if header.length ≠ 32 then throw (.log .truncatedHeader)
  let pcr : Int := Bytes.toNatLE (header.take 4)
  let type : EventType := ⟨Bytes.toNatLE ((header.drop 4).take 4)⟩
  let digest := (header.drop 8).take 20
  let (data, rest) ← take (Bytes.toNatLE (header.drop 28)) (r.rest.drop 32)
  if r.isFirst && type = .noAction && specSignature.isPrefixOf data then
    let sizes ← parseSpec data
    return ([⟨pcr, type, data, none⟩], ⟨rest, some sizes, false⟩)
  return ([⟨pcr, type, data, some ⟨.sha1, digest⟩⟩], ⟨rest, none, false⟩)

/-- Reads `count` digests of declared algorithms. -/
def readDigests (sizes : DigestSizes) : (count : Nat) → Bytes → Except Fault (List Digest × Bytes)
  | 0, b => .ok ([], b)
  | count + 1, b => do
    let (algorithm, b) ← takeNumber 2 b
    match sizes.lookup algorithm with
    | none => throw (.log (.unknownDigest algorithm))
    | some size =>
      let (value, b) ← take size b
      let (more, b) ← readDigests sizes count b
      return (⟨⟨algorithm⟩, value⟩ :: more, b)

/-- The events of one record: one for each digest, or one without any. -/
def spread (pcr : Int) (type : EventType) (data : Bytes) (digests : List Digest) : List ReportedEvent :=
  if digests.isEmpty then [⟨pcr, type, data, none⟩]
  else digests.map fun d => ⟨pcr, type, data, some d⟩

/-- The events of a record with counted digests. -/
def readAgile (r : Reader) (sizes : DigestSizes) : Except Fault (List ReportedEvent × Reader) := do
  if r.rest.isEmpty then return ([], r)
  let header := r.rest.take 12
  if header.length ≠ 12 then throw (.log .truncatedHeader)
  let pcr : Int := Bytes.toNatLE (header.take 4)
  let type : EventType := ⟨Bytes.toNatLE ((header.drop 4).take 4)⟩
  let (digests, b) ← readDigests sizes (Bytes.toNatLE (header.drop 8)) (r.rest.drop 12)
  let (data, rest) ← takeData b
  return (spread pcr type data digests, { r with rest := rest })

/-- The events of the next record, none at the end of the log. -/
def readRecord (r : Reader) : Except Fault (List ReportedEvent × Reader) :=
  match r.sizes with
  | none => readLegacy r
  | some sizes => readAgile r sizes

/-- What reading a log gives: the events before its end or its first fault, and the declarations. -/
structure Outcome where
  events : ReportedLog
  sizes : Option DigestSizes
  fault : Option Fault

/-- Reads no more than `fuel` records. -/
def readRecords : (fuel : Nat) → Reader → Outcome
  | 0, r => ⟨[], r.sizes, none⟩
  | fuel + 1, r =>
    match readRecord r with
    | .error f => ⟨[], r.sizes, some f⟩
    | .ok ([], next) => ⟨[], next.sizes, none⟩
    | .ok (events, next) =>
      let later := readRecords fuel next
      { later with events := events ++ later.events }

/-- Reads a log; every record has at least one byte. -/
def read (b : Bytes) : Outcome := readRecords (b.length + 1) ⟨b, none, true⟩

/-- The events of a log that could be read in full. -/
def Outcome.log (o : Outcome) : Except Fault ReportedLog :=
  match o.fault with
  | none => .ok o.events
  | some f => .error f

/-- Reads a log in full; tells the algorithms of a log that declares them. -/
def parse (b : Bytes) : Journal.Run ReportedLog := do
  let o := read b
  if let some sizes := o.sizes then
    Journal.note .debug ("[tcg_eventlog] crypto agile log, algorithms: "
      ++ ", ".intercalate (sizes.map fun (a, _) => (Algorithm.mk a).name))
  attempt o.log

end MeasuredBoot.BinaryLog
