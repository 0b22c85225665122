/-!
# Search for another order

A search tries to bring a list into an order that a test accepts, by exchanging pairs of items. The pairs
of one trial are disjoint, and fewer pairs are tried first.
-/
namespace MeasuredBoot

/-- The first answer among items that are asked one after another. -/
@[specialize] def firstAnswer {m : Type → Type} [Monad m] {α β : Type} (ask : α → m (Option β)) :
    List α → m (Option β)
  | [] => pure none
  | x :: rest => do
    match ← ask x with
    | some b => return some b
    | none => firstAnswer ask rest

namespace Reorder

def exchange {α : Type} (xs : List α) (i j : Nat) : List α :=
  match xs[i]?, xs[j]? with
  | some x, some y => (xs.set i y).set j x
  | _, _ => xs

/-- All pairs of two items, in order. -/
def pairs {α : Type} : List α → List (α × α)
  | [] => []
  | x :: rest => rest.map (fun y => (x, y)) ++ pairs rest

/-- Tries to exchange exactly `limit` disjoint pairs of free positions, or as many as are free; the
answer lists the pairs, the last one exchanged first. -/
@[specialize] def exactly {m : Type → Type} [Monad m] {α : Type} (matching : List α → m Bool) :
    (limit : Nat) → (free : List Nat) → List α → m (Option (List (Nat × Nat)))
  | 0, _, xs => do
    return if ← matching xs then some [] else none
  | limit + 1, free, xs =>
    if free.length < 2 then do
      return if ← matching xs then some [] else none
    else
      firstAnswer (fun (i, j) => do
        let rest := free.filter fun k => k ≠ i && k ≠ j
        let found ← exactly matching limit rest (exchange xs i j)
        return found.map (· ++ [(i, j)])) (pairs free)

/-- Tries to exchange up to `limit` disjoint pairs, fewer pairs first; there are at most half as many
disjoint pairs as items. -/
@[specialize] def upTo {m : Type → Type} [Monad m] {α : Type} (matching : List α → m Bool) (limit : Int)
    (xs : List α) : m (Option (List (Nat × Nat))) :=
  firstAnswer (fun count => exactly matching count (List.range xs.length) xs)
    (List.range (min limit (xs.length / 2 : Nat) + 1).toNat)

end Reorder
end MeasuredBoot
