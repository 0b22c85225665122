import MeasuredBoot.Hash.Sha1
import MeasuredBoot.Hash.Sha256
import MeasuredBoot.Hash.Sha512
import MeasuredBoot.Text.Radix

/-!
# Algorithm identifiers of a TPM

A TPM names hash algorithms by number. Five numbers have a name, and four of these can be computed here;
any other number is only carried along and written in base sixteen.

Statement here: a digest of a computable algorithm always has the size of that algorithm.
-/
namespace MeasuredBoot

/-- The hash functions which this library computes. -/
inductive HashFunction where
  | sha1
  | sha256
  | sha384
  | sha512
deriving DecidableEq

namespace HashFunction

/-- The number of bytes of a digest. -/
def digestSize : HashFunction → Nat
  | sha1 => 20
  | sha256 => 32
  | sha384 => 48
  | sha512 => 64

def digest : HashFunction → Bytes → Bytes
  | sha1 => Hash.Sha1.digest
  | sha256 => Hash.Sha256.digest
  | sha384 => Hash.Sha512.shortDigest
  | sha512 => Hash.Sha512.digest

@[simp] theorem length_digest (f : HashFunction) (message : Bytes) :
    (f.digest message).length = f.digestSize := by
  cases f <;> simp [digest, digestSize]

end HashFunction

/-- An algorithm as a TPM names it. -/
structure Algorithm where
  code : Int
deriving DecidableEq

namespace Algorithm

def sha1 : Algorithm := ⟨0x0004⟩
def sha256 : Algorithm := ⟨0x000B⟩
def sha384 : Algorithm := ⟨0x000C⟩
def sha512 : Algorithm := ⟨0x000D⟩
def sm3 : Algorithm := ⟨0x0012⟩

/-- The name of the algorithm, or its number with at least four digits. -/
def name (a : Algorithm) : String :=
  if a = sha1 then "SHA1"
  else if a = sha256 then "SHA256"
  else if a = sha384 then "SHA384"
  else if a = sha512 then "SHA512"
  else if a = sm3 then "SM3_256"
  else "0x" ++ Text.paddedHex 4 a.code

/-- The hash function of the algorithm, for those which can be computed. -/
def function? (a : Algorithm) : Option HashFunction :=
  if a = sha1 then some .sha1
  else if a = sha256 then some .sha256
  else if a = sha384 then some .sha384
  else if a = sha512 then some .sha512
  else none

end Algorithm
end MeasuredBoot
