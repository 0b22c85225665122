import MeasuredBoot.Data
import MeasuredBoot.Search.BitFlips

/-!
# Search for a register value

The policy status register may have changed between its measurement and its recording. Candidates for the
measured value are the recorded value counted down and, if asked for, the recorded value with a few bits
flipped; the first candidate that a check accepts is the answer.
-/
namespace MeasuredBoot

/-- The bounds of a search for a register value. -/
structure RegisterBounds where
  combinatorial : Bool := false
  maxFlips : Int := 2
  maxCountdown : Int := 128

namespace RegisterSearch

/-- What a search found, how often its check was asked, and what it wrote meanwhile. -/
structure Report where
  outcome : Except Fault (Option Nat)
  checks : Nat := 0
  journal : Journal := #[]

/-- The value of the eight bytes of a register. -/
def value (b : Bytes) : Except Fault Nat :=
  if b.length = 8 then .ok b.toNatLE else .error (.encoding .notEightBytes)

/-- A value modulo the range of the register, which has 64 bits. -/
def wrapped (v : Int) : Nat := (v % 0x10000000000000000).toNat

/-- The eight bytes of a value, which is taken modulo the range of the register. -/
def bytes (v : Int) : Bytes := Bytes.ofNatLE 8 (wrapped v)

/-- Tries a value and `count - 1` values below it, one after another. -/
@[specialize] def countDown (check : Bytes → Except Fault Bool) :
    (count : Nat) → (v : Int) → (asked : Nat) → Report
  | 0, _, asked => { outcome := .ok none, checks := asked }
  | count + 1, v, asked =>
    match check (bytes v) with
    | .error f => { outcome := .error f, checks := asked + 1 }
    | .ok true => { outcome := .ok (some (wrapped v)), checks := asked + 1 }
    | .ok false => countDown check count (v - 1) (asked + 1)

/-- Tries the recorded value and the values below it. -/
def linear (initial : Bytes) (limit : Int) (check : Bytes → Except Fault Bool) : Report :=
  match value initial with
  | .error f => { outcome := .error f }
  | .ok v => countDown check limit.toNat v 0

/-- Tries the recorded value with up to `limit` flipped bits. -/
def combinatorial (initial : Bytes) (limit : Int) (check : Bytes → Except Fault Bool) : Report :=
  let r := BitFlips.run { initial := initial, lowest := 0, highest := limit, check := check }
  { checks := r.checks
    journal := r.journal
    outcome := do
      match ← r.outcome with
      | none => return none
      | some c => some <$> value (Combination.flipAll initial c) }

/-- Adds a line about a value that was found. -/
def announce (strategy : String) (r : Report) : Report :=
  match r.outcome with
  | .ok (some v) =>
    { r with journal := r.journal.push ⟨.debug, "[pcrbruteforcer] ACM_POLICY_STATUS found by the "
        ++ strategy ++ " search: 0x" ++ Text.paddedHex 16 v⟩ }
  | _ => r

def run (initial : Bytes) (check : Bytes → Except Fault Bool) (bounds : RegisterBounds) : Report :=
  if initial.length ≠ 8 then
    { outcome := .error (.search (.registerWidth (8 * initial.length))) }
  else
    let first := announce "linear" (linear initial bounds.maxCountdown check)
    match first.outcome with
    | .ok none =>
      if bounds.combinatorial then
        let second := announce "combinatorial" (combinatorial initial bounds.maxFlips check)
        { second with checks := first.checks + second.checks }
      else first
    | _ => first

/-- The digest of measured data whose first eight bytes are replaced. -/
def dataDigest (data register : Bytes) (a : Algorithm) : Except Fault Bytes :=
  hashBytes a (register ++ data.drop 8)

/-- The register value with which measured data have an expected digest. -/
def ofDigest (data : Bytes) (a : Algorithm) (expected : Bytes) (bounds : RegisterBounds) : Report :=
  run (data.take 8) (fun register => do return (← dataDigest data register a) == expected) bounds

end RegisterSearch
end MeasuredBoot
