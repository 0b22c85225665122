import MeasuredBoot.Tpm.Command

/-!
# Replay of an event log

The value of register zero follows from the logged digests: it starts as zeros with the locality in the
last byte, and each digest is hashed together with the value before it.
-/
namespace MeasuredBoot.EventLog

/-- Zeros with a locality in the last byte, which must fit there. -/
def startValue (size : Nat) (locality : Int) : Except Fault Bytes :=
  if locality < 0 ∨ 255 < locality then .error (.encoding .localityInRegister)
  else .ok (Bytes.zeros (size - 1) ++ [UInt8.ofNat locality.toNat])

/-- The value after the digests of one algorithm. -/
def extendAll (f : HashFunction) (value : Bytes) (digests : List Bytes) : Bytes :=
  digests.foldl (fun v d => f.digest (v ++ d)) value

/-- The digests logged for a register and an algorithm. -/
def digestsOf (entries : List EventEntry) (pcr : Int) (a : Algorithm) : List Bytes :=
  (entries.filter fun e => e.pcr = pcr && e.algorithm = a).map EventEntry.digest

/-- The value of a register after the logged entries. -/
def replay (entries : List EventEntry) (pcr : Int) (a : Algorithm) (locality : Int) :
    Except Fault Bytes := do
  if pcr ≠ 0 then throw (.tpm .replayOfOtherPcr)
  match a.function? with
  | none => throw (.tpm (.notHashable a))
  | some f =>
    let value ← startValue f.digestSize locality
    return extendAll f value (digestsOf entries pcr a)

end MeasuredBoot.EventLog
