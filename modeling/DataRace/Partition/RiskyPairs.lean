import DataRace.Collection

/-!
# DataRace.Partition.RiskyPairs

The access pairs of a partition that may still race.

Pairs come in batches.  A batch that does not fit in the budget is dropped as
a whole and closes the set, unless every pair is wanted.
-/

namespace DataRace

/-- A collected memory access, by its position in the list of accesses. -/
abbrev AccessId := Nat

/-- Pairs that may race, the smaller access first. -/
structure RiskyPairs where
  pairs : PairSet := ∅
  budget : Nat
  /-- Collect without regard to the budget. -/
  all : Bool
  /-- A batch was dropped. -/
  dropped : Bool := false

namespace RiskyPairs

instance : Inhabited RiskyPairs := ⟨{ budget := 0, all := false }⟩

/-- The pair with its smaller access first. -/
def ordered (a b : AccessId) : AccessId × AccessId := if a ≤ b then (a, b) else (b, a)

/-- Whether `n` more pairs fit. -/
def fits (r : RiskyPairs) (n : Nat) : Bool := !r.dropped && r.pairs.size + n ≤ r.budget

/-- Add every pair of one access of each list, or drop the whole batch. -/
def addBatch (r : RiskyPairs) (as bs : List AccessId) : RiskyPairs :=
  if !r.all && !r.fits (as.length * bs.length) then
    { r with dropped := true }
  else
    { r with pairs := as.foldl (fun s a => bs.foldl (fun s b => s.insert (ordered a b)) s) r.pairs }

/-- Whether the budget is reached or a batch was dropped. -/
def isOverBudget (r : RiskyPairs) : Bool := r.dropped || r.pairs.size ≥ r.budget

/-- Keep the pairs that are not to be pruned. -/
def prune (r : RiskyPairs) (drop : AccessId → AccessId → Bool) : RiskyPairs :=
  { r with pairs := r.pairs.filter fun (a, b) => !drop a b }

/-- Keep the pairs that are not to be pruned, asked in order. -/
def pruneM {μ : Type → Type} [Monad μ] (r : RiskyPairs) (drop : AccessId → AccessId → μ Bool) :
    μ RiskyPairs := do
  let kept ← r.pairs.toList.filterM fun (a, b) => return !(← drop a b)
  return { r with pairs := Std.TreeSet.ofList kept lexOrd.compare }

def contains (r : RiskyPairs) (a b : AccessId) : Bool := r.pairs.contains (ordered a b)

/-- The accesses of all pairs. -/
def ids (r : RiskyPairs) : IdSet := r.pairs.foldl (fun s (a, b) => (s.insert a).insert b) ∅

def size (r : RiskyPairs) : Nat := r.pairs.size

def isEmpty (r : RiskyPairs) : Bool := r.pairs.isEmpty

end RiskyPairs

end DataRace
