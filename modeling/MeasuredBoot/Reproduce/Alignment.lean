import MeasuredBoot.EventLog.Reported
import MeasuredBoot.Search.Combination

/-!
# Aligning a reported log with a simulated one

Reported events and simulated entries are paired in order after some of each are skipped. Skipping costs
as much as there could ever be entries, a pair with different digests nearly twice that, and different
types a little, so that skipping a pair never pays unless both its digest and its type differ. The search
tries skipping on one side only, and then a few events more on both sides.
-/
namespace MeasuredBoot

/-- Which reported events and which simulated entries are skipped, and the cost of the pairing. -/
structure Alignment where
  skippedEvents : List Nat
  skippedEntries : List Nat
  cost : Nat

namespace Alignment

/-- The cost of skipping one event or entry. -/
def skipCost : Nat := 0xFFFFFFFF

/-- The cost of pairing an event with an entry; an event without a digest cannot be compared. -/
def pairCost (e : ReportedEvent) (c : EventEntry) : Except Fault Nat := do
  let d ← e.givenDigest "value"
  return (if d.value ≠ c.digest then 2 * skipCost - 1 else 0) + (if e.type ≠ c.type then 2 else 0)

/-- The cost of pairing what is left of both logs from the given positions on. An entry that is to be
skipped goes before an event that is. -/
def costFrom (skippedEvents skippedEntries : List Nat) :
    (i : Nat) → List ReportedEvent → (k : Nat) → List EventEntry → Except Fault Nat
  | _, [], _, [] => .ok 0
  | i, [], k, _ :: cs =>
    if skippedEntries.contains k then do
      return skipCost + (← costFrom skippedEvents skippedEntries i [] (k + 1) cs)
    else .error (.search .unequalLogs)
  | i, _ :: es, k, [] =>
    if skippedEvents.contains i then do
      return skipCost + (← costFrom skippedEvents skippedEntries (i + 1) es k [])
    else .error (.search .unequalLogs)
  | i, e :: es, k, c :: cs =>
    if skippedEntries.contains k then do
      return skipCost + (← costFrom skippedEvents skippedEntries i (e :: es) (k + 1) cs)
    else if skippedEvents.contains i then do
      return skipCost + (← costFrom skippedEvents skippedEntries (i + 1) es k (c :: cs))
    else do
      let cost ← pairCost e c
      return cost + (← costFrom skippedEvents skippedEntries (i + 1) es (k + 1) cs)
termination_by _ es _ cs => es.length + cs.length

def costOf (expected : List ReportedEvent) (skippedEvents : List Nat) (calculated : List EventEntry)
    (skippedEntries : List Nat) : Except Fault Nat :=
  costFrom skippedEvents skippedEntries 0 expected 0 calculated

/-- The better of two alignments, the first if they cost the same. -/
def better (best : Option Alignment) (a : Alignment) : Option Alignment :=
  match best with
  | none => some a
  | some b => if a.cost < b.cost then some a else some b

/-- True of an alignment that cannot be improved. -/
def isPerfect (best : Option Alignment) : Bool := best.any (·.cost = 0)

def consider (expected : List ReportedEvent) (calculated : List EventEntry)
    (skippedEvents skippedEntries : List Nat) (best : Option Alignment) :
    Except Fault (Option Alignment) := do
  let cost ← costOf expected skippedEvents calculated skippedEntries
  return better best ⟨skippedEvents, skippedEntries, cost⟩

/-- Tries to skip on one side only: as many as one log has more than the other. -/
def tryOneSide (expected : List ReportedEvent) (calculated : List EventEntry) :
    Except Fault (Option Alignment) :=
  let (events, entries) := (expected.length, calculated.length)
  if entries < events then
    Combination.foldUntil (events - entries) events isPerfect
      (fun best es => consider expected calculated es [] best) none
  else
    Combination.foldUntil (entries - events) entries isPerfect
      (fun best cs => consider expected calculated [] cs best) none

/-- Tries to skip `count` events and so many entries that equally many are left. -/
def tryBothSides (expected : List ReportedEvent) (calculated : List EventEntry) (count : Nat)
    (best : Option Alignment) : Except Fault (Option Alignment) :=
  let (events, entries) := (expected.length, calculated.length)
  if count + entries < events then .ok best
  else
    Combination.foldUntil count events isPerfect
      (fun best es => Combination.foldUntil (count + entries - events) entries isPerfect
        (fun best cs => consider expected calculated es cs best) best) best

/-- The best alignment in which no more than `maxSkipped` events are skipped, or one side is whole. -/
def search (expected : List ReportedEvent) (calculated : List EventEntry) (maxSkipped : Int) :
    Except Fault Alignment := do
  let counts := List.range (min maxSkipped expected.length + 1).toNat
  let best ← counts.foldlM (fun best count => tryBothSides expected calculated count best)
    (← tryOneSide expected calculated)
  match best with
  | some a => return a
  | none => throw (.search .noAlignment)

/-- Two lists side by side from the given positions on, with nothing in place of what is skipped. -/
def pairFrom {α β : Type} (a : Alignment) :
    (i : Nat) → List β → (k : Nat) → List α → List (Option α × Option β)
  | _, [], _, [] => []
  | i, [], k, c :: cs => (some c, none) :: pairFrom a i [] (k + 1) cs
  | i, e :: es, k, [] => (none, some e) :: pairFrom a (i + 1) es k []
  | i, e :: es, k, c :: cs =>
    if a.skippedEvents.contains i then (none, some e) :: pairFrom a (i + 1) es k (c :: cs)
    else if a.skippedEntries.contains k then (some c, none) :: pairFrom a i (e :: es) (k + 1) cs
    else (some c, some e) :: pairFrom a (i + 1) es (k + 1) cs
termination_by _ es _ cs => es.length + cs.length

/-- Reported events and simulated entries side by side. -/
def pairs {α β : Type} (a : Alignment) (expected : List β) (calculated : List α) :
    List (Option α × Option β) :=
  pairFrom a 0 expected 0 calculated

end Alignment
end MeasuredBoot
