import MeasuredBoot.Reference

/-!
# Data values

What a data source yields: literal bytes, or references whose bytes may be passed through a hash. The
two are exclusive by construction; a value without bytes and without references is empty.
-/
namespace MeasuredBoot

/-- The digest of bytes, if the algorithm can be computed. -/
def hashBytes (a : Algorithm) (b : Bytes) : Except Fault Bytes :=
  match a.function? with
  | none => .error (.tpm (.notHashable a))
  | some f => .ok (f.digest b)

/-- The size of a digest, if the algorithm can be computed. -/
def digestSize (a : Algorithm) : Except Fault Nat :=
  match a.function? with
  | none => .error (.tpm (.notHashable a))
  | some f => .ok f.digestSize

/-- Literal bytes, or references with an optional hash. -/
inductive Data where
  | literal (b : Bytes)
  | referenced (rs : References) (hash : Option Algorithm)

namespace Data

def empty : Data := referenced [] none

/-- Builds a value from parts that may exclude each other. -/
def make (literalBytes : Option Bytes) (rs : References) (hash : Option Algorithm) : Except Fault Data :=
  match literalBytes with
  | none => .ok (referenced rs hash)
  | some b =>
    if !rs.isEmpty then .error (.data .literalWithReferences)
    else if hash.isSome then .error (.data .literalWithConverter)
    else .ok (literal b)

def references : Data → References
  | literal _ => []
  | referenced rs _ => rs

def hash? : Data → Option Algorithm
  | literal _ => none
  | referenced _ h => h

def isEmpty : Data → Bool
  | literal _ => false
  | referenced rs _ => rs.isEmpty

def raw : Data → Except Fault Bytes
  | literal b => .ok b
  | referenced rs _ => rs.read

/-- The bytes after the hash, if there is one. -/
def converted (d : Data) : Except Fault Bytes := do
  let b ← d.raw
  match d.hash? with
  | none => return b
  | some a => hashBytes a b

def hasherText (a : Algorithm) : String := "Hasher(" ++ a.name ++ ")"

def text : Data → String
  | literal b => "Data(0x" ++ b.toHexUpper ++ ")"
  | referenced rs h =>
    "Data([" ++ rs.text ++ "]"
      ++ (match h with
          | none => ""
          | some a => ", " ++ hasherText a)
      ++ ")"

def document : Data → Text.Json
  | literal b => .object [("forced_bytes", .str b.toHex)]
  | referenced rs h =>
    .object ([("references", .list (rs.map Reference.document))]
      ++ (h.map fun a => ("converter", Text.Json.str (hasherText a))).toList)

end Data
end MeasuredBoot
