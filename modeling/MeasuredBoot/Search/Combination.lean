import MeasuredBoot.Fault

/-!
# Combinations

A combination of `k` values out of `0, …, n - 1` is listed in increasing order, and combinations of one
size are ordered lexicographically. The number of a combination is its position in that order, so any
interval of numbers can be enumerated on its own.
-/
namespace MeasuredBoot

abbrev Combination := List Nat

namespace Combination

/-- The number of ways to choose `k` out of `n`. -/
def binomial (n k : Nat) : Nat :=
  if n < k then 0
  else (List.range (min k (n - k))).foldl (fun c i => c * (n - i) / (i + 1)) 1

/-- The greatest number of factors that may be multiplied to count combinations. -/
def maxFactors : Nat := 0x7FFFFFFFFFFFFFFF

/-- The number of ways to choose, for counts that must not be negative. Choosing what to leave out is
counted alike, so the factors are as many as the smaller of both. -/
def choose (n k : Int) : Except Fault Nat :=
  if n < 0 ∨ k < 0 then .error (.argument (.negativeCount (if n < 0 then "n" else "k")))
  else if k ≤ n ∧ maxFactors < min k.toNat (n - k).toNat then .error (.argument .tooManyFactors)
  else .ok (binomial n.toNat k.toNat)

/-- The number of combinations that precede a list of values, given the value before it. -/
def rankFrom (n : Int) (previous : Int) : List Int → Except Fault Int
  | [] => .ok 0
  | v :: rest => do
    let k : Int := (v :: rest).length
    let all ← choose (n - previous - 1) k
    let left ← choose (n - v) k
    return (all : Int) - left + (← rankFrom n v rest)

def rank (c : List Int) (n : Int) : Except Fault Int := rankFrom n (-1) c

/-- The smallest first value of which no more than `id` combinations of `k` values precede, from `value`
on, with what is left of the number; looks at no more than `fuel` values. -/
def firstValue (n k : Nat) : (fuel value id : Nat) → Nat × Nat
  | 0, value, id => (value, id)
  | fuel + 1, value, id =>
    let count := binomial (n - value - 1) (k - 1)
    if id < count then (value, id) else firstValue n k fuel (value + 1) (id - count)

/-- The values from `value` on of the combination with a number among those of `k` values. -/
def unrankFrom (n : Nat) : (k value id : Nat) → Combination
  | 0, _, _ => []
  | k + 1, value, id =>
    let (v, left) := firstValue n (k + 1) (n - value) value id
    v :: unrankFrom n k (v + 1) left

def unrank (id k n : Int) : Except Fault Combination := do
  if id < 0 then throw (.search (.combinationId id n k))
  let total ← choose n k
  if (total : Int) ≤ id then throw (.search (.combinationId id n k))
  return unrankFrom n.toNat k.toNat 0 id.toNat

def run (start : Int) : (count : Nat) → List Int
  | 0 => []
  | count + 1 => start :: run (start + 1) count

/-- The next list of values, given how many places remain below `n`: the last value that can grow does,
and those after it follow at once. -/
def nextOf (n : Int) : List Int → Option (List Int)
  | [] => none
  | v :: rest =>
    match nextOf n rest with
    | some more => some (v :: more)
    | none => if v < n - (rest.length + 1) then some (run (v + 1) (rest.length + 1)) else none

/-- The combination after a combination of natural numbers. -/
def next (n : Nat) (c : Combination) : Option Combination :=
  (nextOf n (c.map Int.ofNat)).map (·.map Int.toNat)

/-- At most `count` combinations from one on. -/
def enumerateFrom (n : Nat) : (count : Nat) → Combination → List Combination
  | 0, _ => []
  | count + 1, c =>
    c :: (match next n c with
          | some d => enumerateFrom n count d
          | none => [])

/-- The combinations with numbers from `start` up to `stop`, or to the last one. -/
def enumerate (k n start : Int) (stop : Option Int) : Except Fault (List Combination) := do
  let total ← choose n k
  let last := match stop with
    | some s => if s ≤ total then s else total
    | none => (total : Int)
  if last ≤ start then return []
  let first ← unrank start k n
  return enumerateFrom n.toNat (last - start).toNat first

/-- Takes at most `count` combinations from one on, one after another, until the result is final. -/
@[specialize] def foldUntilFrom {m : Type → Type} [Monad m] {β : Type} (n : Nat) (isFinal : β → Bool)
    (step : β → Combination → m β) : (count : Nat) → Combination → β → m β
  | 0, _, b => pure b
  | count + 1, c, b =>
    if isFinal b then pure b
    else do
      let b ← step b c
      match next n c with
      | some d => foldUntilFrom n isFinal step count d b
      | none => pure b

/-- Takes all combinations of `k` out of `n` values, one after another, until the result is final. -/
@[specialize] def foldUntil {m : Type → Type} [Monad m] {β : Type} (k n : Nat) (isFinal : β → Bool)
    (step : β → Combination → m β) (b : β) : m β :=
  if n < k then pure b else foldUntilFrom n isFinal step (binomial n k) (List.range k) b

/-- The first answer among all combinations of `k` out of `n` values. -/
@[specialize] def first {m : Type → Type} [Monad m] {α : Type} (k n : Nat)
    (ask : Combination → m (Option α)) : m (Option α) :=
  foldUntil k n Option.isSome (fun _ c => ask c) none

/-- Flips one bit; bit zero is the lowest of the first byte. -/
def flipBit (b : Bytes) (i : Nat) : Bytes :=
  b.modify (i / 8) (· ^^^ (1 <<< UInt8.ofNat (i % 8)))

/-- Flips bits by signed position; a position below zero counts from the end. -/
def flipAt (b : Bytes) (i : Int) : Except Fault Bytes :=
  let j := if i < 0 then i + 8 * b.length else i
  if j < 0 ∨ 8 * b.length ≤ j then .error (.argument (.position "bytearray"))
  else .ok (flipBit b j.toNat)

def flipAll (b : Bytes) (c : Combination) : Bytes := c.foldl flipBit b

end Combination
end MeasuredBoot
