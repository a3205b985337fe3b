import DataRace.Access
import DataRace.Parallel.Basic
import DataRace.Partition.RiskyPairs

/-!
# DataRace.Partition.Basic

Memory partitions: objects that exactly the same accesses touch.

A partition holds its accesses and the pairs of them that may still race.
Refinements only ever take away: an access that cannot take part in a race is
pruned, a pair that is proved apart is removed.
-/

namespace DataRace

/-- A partition, numbered from 1. -/
abbrev PartId := Nat

/-- Objects that the same accesses touch. -/
structure Partition where
  id : PartId
  objs : IdSet
  /-- The accesses in order; `none` once pruned. -/
  accesses : List (Option AccessId)
  risky : RiskyPairs
deriving Inhabited

namespace Partition

/-- The accesses that are not pruned. -/
def live (p : Partition) : List AccessId := p.accesses.filterMap fun a => a

/-- Whether every access is pruned. -/
def isPruned (p : Partition) : Bool := p.accesses.all (·.isNone)

/-- Prune the accesses that do not pass a test. -/
def keepAccesses (p : Partition) (keep : AccessId → Bool) : Partition :=
  { p with accesses := p.accesses.map (·.filter keep) }

end Partition

/-- The partitions of all objects accessed. -/
structure Partitioning where
  /-- The partitions by number. -/
  parts : List Partition := []
  /-- The accesses that write. -/
  writes : IdSet := ∅
deriving Inhabited

namespace Partitioning

/-- The objects an access touches.  A call that gets a pointer to the start of an aggregate touches
all its fields. -/
def touched (s : Subject) (a : Access) : List ObjId :=
  let t := s.pointers
  let isData (o : ObjId) := !(t.obj o).isUnknown && !(t.obj o).isFunction
  ((t.of a.ptr).toList.filter isData).flatMap fun o =>
    o :: if s.program.isCall a.inst && (t.obj o).isFirstField then t.objs.allFields o else []

/-- The accesses that touch each object. -/
def touching (s : Subject) (ops : Operations) : IdMap IdSet :=
  ops.ids.foldl (fun m a => (touched s (ops.get a)).foldl (·.addTo · a) m) ∅

/-- Put an object into the partition with its accesses, or into a new one. -/
def place (c : Config) (parts : List Partition) (o : ObjId) (accesses : List (Option AccessId)) :
    List Partition :=
  if parts.any (·.accesses = accesses) then
    parts.map fun p => if p.accesses = accesses then { p with objs := p.objs.insert o } else p
  else
    parts ++ [{ id := parts.length + 1, objs := {o}, accesses
                risky := { budget := c.riskyPairBudget, all := c.allRiskyPairs } }]

/-- Partition the objects that the accesses touch. -/
def of (s : Subject) (ops : Operations) : Partitioning where
  parts := (touching s ops).toList.foldl (fun parts (o, ids) =>
    place s.config parts o (ids.toList.map some)) []
  writes := Std.TreeSet.ofList (ops.ids.filter fun a => (ops.get a).isWrite)

/-- The partition of a number. -/
def get? (m : Partitioning) (p : PartId) : Option Partition := m.parts.find? (·.id = p)

/-- The partition of an object. -/
def partOf? (m : Partitioning) (o : ObjId) : Option PartId :=
  (m.parts.find? (·.objs.contains o)).map (·.id)

def isWrite (m : Partitioning) (a : AccessId) : Bool := m.writes.contains a

/-- The number of pairs that may still race. -/
def pairCount (m : Partitioning) : Nat := total (m.parts.map (·.risky.size))

/-- The number of partitions with an access left. -/
def liveCount (m : Partitioning) : Nat := m.parts.countP fun p => !p.isPruned

/-- Apply a change to every partition in turn. -/
def mapM {μ : Type → Type} [Monad μ] (m : Partitioning) (f : Partition → μ Partition) :
    μ Partitioning :=
  return { m with parts := ← m.parts.mapM f }

/-- Apply a change to every partition. -/
def map (m : Partitioning) (f : Partition → Partition) : Partitioning :=
  { m with parts := m.parts.map f }

/-- Prune the accesses that run beside no other. -/
def pruneSequential (m : Partitioning) (s : Subject) (ops : Operations) (par : Parallelism) :
    Partitioning :=
  m.map (·.keepAccesses fun a => !par.isSequential s.program (ops.get a).inst)

/-! ## Risky pairs -/

/-- The accesses on one side of a fork that write, or that do not. -/
def onSide (m : Partitioning) (side : Side) (write : Bool) (found : List (AccessId × Side)) :
    List AccessId :=
  (found.filter fun (a, t) => t = side && m.isWrite a == write).map (·.1)

/-- Add the pairs of accesses on different sides of one fork with a write among them, unless the
budget is reached. -/
def addFork (m : Partitioning) (r : RiskyPairs) (found : List (AccessId × Side)) : RiskyPairs :=
  if !r.all && r.isOverBudget then
    r
  else
    let trunkWrites := m.onSide .trunk true found
    let branchWrites := m.onSide .branch true found
    r.addBatch trunkWrites branchWrites
      |>.addBatch trunkWrites (m.onSide .branch false found)
      |>.addBatch (m.onSide .trunk false found) branchWrites

/-- The accesses of a partition under every fork that can see it, with their side. -/
def underForks {μ : Type → Type} [Monad μ] (s : Subject) (ops : Operations) (par : Parallelism)
    (isVisible : InstId → Bool) (ruledOut : AccessId → Point → μ Bool) (accesses : List AccessId) :
    μ (IdMap (List (AccessId × Side))) :=
  let points := accesses.flatMap fun a =>
    ((par.pointsOf s.program (ops.get a).inst).filter fun q => isVisible q.spawn).map (a, ·)
  points.foldlM (fun found (a, q) => do
    if ← ruledOut a q then
      return found
    else
      return found.insert q.spawn (found.getD q.spawn [] ++ [(a, q.side)])) ∅

/-- Collect the pairs that may race: accesses on different sides of a fork that can see their
partition.  An access can be ruled out for a partition at one point. -/
def seed {μ : Type → Type} [Monad μ] (m : Partitioning) (s : Subject) (ops : Operations)
    (par : Parallelism) (isVisible : PartId → InstId → Bool)
    (ruledOut : AccessId → Point → PartId → μ Bool) : μ Partitioning :=
  (m.pruneSequential s ops par).mapM fun p => do
    let found ← underForks s ops par (isVisible p.id) (fun a q => ruledOut a q p.id) p.live
    return { p with risky := found.values.foldl m.addFork p.risky }

/-- Remove the pairs that are proved apart, except in partitions over budget. -/
def filterPairs {μ : Type → Type} [Monad μ] (m : Partitioning)
    (apart : PartId → AccessId → AccessId → μ Bool) : μ Partitioning :=
  m.mapM fun p => do
    if p.risky.isOverBudget then
      return p
    else
      return { p with risky := ← p.risky.pruneM (apart p.id) }

/-- Prune the accesses in no risky pair, except in partitions over budget. -/
def pruneSafe (m : Partitioning) : Partitioning :=
  m.map fun p => if p.risky.isOverBudget then p else p.keepAccesses p.risky.ids.contains

/-- Note the partitions whose pairs are over budget. -/
def noteOverruns (m : Partitioning) (log : Log) : Log :=
  m.parts.foldl (fun log p =>
    if p.risky.isOverBudget && !p.isPruned then
      log.warn (s!"partition p{p.id} is over the risky pair budget " ++
        s!"({p.risky.size} pairs kept)")
    else
      log) log

end Partitioning

end DataRace
