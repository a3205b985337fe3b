import DataRace.Partition.Escape
import DataRace.View.Parallel

/-!
# DataRace.View.Partition

Memory partitions as plain data, through the steps that prune them.
-/

namespace DataRace

namespace Partitioning

/-- The accesses of every partition. -/
def viewAccesses (m : Partitioning) : Datum := view (m.parts.map (·.accesses))

/-- The risky pairs of every partition. -/
def viewRisky (m : Partitioning) : Datum :=
  view (m.parts.map fun p =>
    Datum.record [("pairs", view p.risky.pairs), ("over", view p.risky.isOverBudget)])

/-- The partitions, and what is left of them after each step: without the hidden ones, with the
risky pairs collected, without the pairs of the first accessing instruction, and without the
accesses in no pair. -/
def viewSteps (s : Subject) (ops : Operations) (par : Parallelism) : Datum :=
  let t := s.pointers
  let sites := ops.spawns ++ ops.parallelFors
  let all := Partitioning.of s ops
  let x := Escape.of s ops all
  let hidden := all.pruneHidden x
  let seeded := Id.run (hidden.seedVisible s ops par x fun _ _ _ => false)
  let isFirst (a : AccessId) := ops.insts.head? == some (ops.get a).inst
  let filtered := Id.run (seeded.filterPairs fun _ a b => isFirst a || isFirst b)
  let pruned := filtered.pruneSafe
  let log := pruned.noteOverruns s.config.emptyLog
  .record [("parts", view (all.parts.map fun p =>
      Datum.record [("objs", view p.objs), ("escapes", view (x.escapes p.id)),
        ("to", bits (sites.map (x.escapesTo p.id))), ("visible", view (x.visibleForks p.id))])),
    ("part_of", view ((List.range t.objs.size).map all.partOf?)),
    ("visible", view (ops.accesses.map fun a =>
      (x.isGlobalVisible t a.ptr, bits (sites.map (x.isForkVisible t a.ptr))))),
    ("accesses", all.viewAccesses), ("escaped", hidden.viewAccesses),
    ("live", view hidden.liveCount), ("seeded", seeded.viewRisky),
    ("after_mhp", seeded.viewAccesses), ("total", view seeded.pairCount),
    ("removed", view (seeded.pairCount - filtered.pairCount)), ("filtered", filtered.viewRisky),
    ("pruned", pruned.viewAccesses), ("live_after", view pruned.liveCount),
    ("log", view log.text), ("warnings", view log.warnings),
    ("global_parts", view x.globalParts), ("spawn_parts", view x.allForkParts),
    ("empty", view all.parts.isEmpty), ("len", view all.parts.length)]

end Partitioning

end DataRace
