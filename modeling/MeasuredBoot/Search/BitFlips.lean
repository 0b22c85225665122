import MeasuredBoot.Journal
import MeasuredBoot.Search.Combination

/-!
# Search by flipping bits

A search looks for the smallest set of bits whose flipping makes a check accept the data. Sets of one size
are tried in lexicographic order, split into chunks for several workers; the answer is that of the lowest
chunk, so it does not depend on the number of workers. A worker that fails makes the search fail, after
all workers of that size have ended.
-/
namespace MeasuredBoot.BitFlips

/-- What a search is about. -/
structure Query where
  initial : Bytes
  lowest : Int
  highest : Int
  itemWidth : Int := 8
  workers : Int := 1
  check : Bytes → Except Fault Bool

/-- What a search found and how much it did. -/
structure Report where
  outcome : Except Fault (Option Combination)
  /-- How often the check was asked. -/
  checks : Nat := 0
  /-- How many workers were started, the trial of the unchanged data among them. -/
  starts : Nat := 0
  journal : Journal := #[]

/-- What a worker found. -/
inductive Finding where
  | found (c : Combination)
  | exhausted
  | failed (f : Fault)

/-- The fewest combinations for which a further worker is started. -/
def combinationsPerWorker : Nat := 10000

/-- As many combinations of one size, or more, are refused. -/
def combinationLimit : Nat := 0x7FFFFFFFFFFFFFFF

/-- Tries at most `count` combinations from one on; also tells how often the check was asked. -/
@[specialize] def scan (initial : Bytes) (check : Bytes → Except Fault Bool) (n : Nat) :
    (count : Nat) → (asked : Nat) → Combination → Finding × Nat
  | 0, asked, _ => (.exhausted, asked)
  | count + 1, asked, c =>
    match check (Combination.flipAll initial c) with
    | .error f => (.failed f, asked + 1)
    | .ok true => (.found c, asked + 1)
    | .ok false =>
      match Combination.next n c with
      | some d => scan initial check n count (asked + 1) d
      | none => (.exhausted, asked + 1)

/-- How many workers share the combinations of one size. -/
def workerCount (workers : Int) (total : Nat) : Nat :=
  (max 1 (min workers (total / combinationsPerWorker : Nat))).toNat

/-- The numbers from which and up to which each worker tries combinations. -/
def chunks (total workers : Nat) : List (Nat × Nat) :=
  (List.range workers).map fun i =>
    (i * (total / workers), if i + 1 = workers then total else (i + 1) * (total / workers))

/-- What is known while the chunks of one size are tried. -/
structure Progress where
  found : Option Combination := none
  faults : List (Nat × Fault) := []
  asked : Nat := 0

/-- Tries a chunk; a chunk after one with an answer has nothing left to do. -/
def tryChunk (q : Query) (distance n : Nat) (p : Progress) (chunk : Nat) (bounds : Nat × Nat) :
    Progress :=
  if p.found.isSome then p
  else
    let first := Combination.unrankFrom n distance 0 bounds.1
    match scan q.initial q.check n (bounds.2 - bounds.1) p.asked first with
    | (.found c, asked) => { p with found := some c, asked := asked }
    | (.exhausted, asked) => { p with asked := asked }
    | (.failed f, asked) => { p with faults := p.faults ++ [(chunk, f)], asked := asked }

/-- The lines about the chunks of one size. -/
def announce (distance total workers : Nat) (bounds : List (Nat × Nat)) : Journal :=
  (⟨.debug, "[bruteforce] distance " ++ Text.decimal distance ++ ": " ++ Text.decimal total
      ++ " combinations, " ++ Text.decimal workers ++ " workers"⟩
    :: bounds.zipIdx.map fun ((start, stop), i) =>
      ⟨.trace, "[bruteforce] chunk " ++ Text.decimal i ++ ": combinations " ++ Text.decimal start
        ++ ".." ++ Text.decimal stop⟩).toArray

def complain (faults : List (Nat × Fault)) : Journal :=
  (faults.map fun (i, f) =>
    ⟨.error, "[bruteforce] worker " ++ Text.decimal i ++ " failed: " ++ f.message⟩).toArray

/-- Tries `count` sizes from `distance` on, adding to a report. -/
def tryDistances (q : Query) (n : Nat) : (count distance : Nat) → Report → Report
  | 0, _, r => r
  | count + 1, distance, r =>
    let total := Combination.binomial n distance
    if combinationLimit ≤ total then
      { r with outcome := .error (.search .tooManyCombinations) }
    else
      let workers := workerCount q.workers total
      let bounds := chunks total workers
      let p := bounds.zipIdx.foldl (fun p (b, i) => tryChunk q distance n p i b) {}
      let r := { r with
        checks := r.checks + p.asked
        starts := r.starts + workers
        journal := r.journal ++ announce distance total workers bounds ++ complain p.faults }
      if !p.faults.isEmpty then
        { r with outcome := .error (.search (.workers
            (Text.bracketed (p.faults.map fun (_, f) => f.text)))) }
      else
        match p.found with
        | some c => { r with outcome := .ok (some c) }
        | none => tryDistances q n count (distance + 1) r

/-- Why a query cannot be answered, if it cannot. -/
def obstacle? (q : Query) : Option Fault :=
  let n := 8 * q.initial.length
  if q.highest < q.lowest then some (.search (.distances q.lowest q.highest))
  else if q.itemWidth ≤ 0 ∨ (n : Int) % q.itemWidth ≠ 0 then
    some (.argument (.itemWidth q.initial.length q.itemWidth))
  else if q.lowest < 0 ∨ (n : Int) < q.lowest then some (.argument (.lowestDistance q.lowest n))
  else none

def run (q : Query) : Report :=
  match obstacle? q with
  | some f => { outcome := .error f }
  | none =>
    let n := 8 * q.initial.length
    let last := min q.highest.toNat n
    let first := max q.lowest.toNat 1
    let later (r : Report) := tryDistances q n (last + 1 - first) first r
    if q.lowest = 0 then
      match q.check q.initial with
      | .error f => { outcome := .error f, checks := 1, starts := 1 }
      | .ok true => { outcome := .ok (some []), checks := 1, starts := 1 }
      | .ok false => later { outcome := .ok none, checks := 1, starts := 1 }
    else later { outcome := .ok none }

end MeasuredBoot.BitFlips
