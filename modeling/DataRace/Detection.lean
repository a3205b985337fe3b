import DataRace.Alias.Refinement
import DataRace.Barrier
import DataRace.Guard.Exclusion
import DataRace.HeapInstance
import DataRace.Report.CheckPlan

/-!
# DataRace.Detection

The detection of races.

The accesses are collected and partitioned, the pairs on different sides of a
fork are collected as risky, and then each filter in turn removes pairs that
it proves apart.  What is left is reported.

* `Detection.run` detects the races of a program;
* `Recheck.run` asks the filters about single pairs of instructions.
-/

namespace DataRace

/-- The outcome of a detection. -/
structure Detection where
  report : RaceReport
  /-- The checks for a run-time checker, when asked for. -/
  plan : Option CheckPlan
  stats : Statistics
  log : Log
deriving Inhabited

/-- What the filters work on. -/
structure Screening where
  ops : Operations
  parts : Partitioning
  escape : Escape
  par : Parallelism
  /-- The alias refinement, unless it is disabled. -/
  aliases : Option AliasRefinement
  stats : Statistics
  log : Log
deriving Inhabited

namespace Screening

/-- The instructions and places queries are asked about. -/
def scope (x : Screening) (s : Subject) : AliasScope := ⟨s, x.par⟩

/-- Note the number of risky pairs after a phase. -/
def record (x : Screening) (phase : Phase) : Screening :=
  { x with stats := x.stats.recordPairs phase x.parts.pairCount }

/-- Run a step of the alias refinement on the partitions; without refinement they stay. -/
def refineParts (x : Screening) (step : Refine Partitioning) : Except Error Screening :=
  match x.aliases with
  | none => .ok x
  | some r => do
    let (parts, r) := step.run.run { r with solver.log := x.log }
    return { x with parts := ← parts, aliases := some r, log := r.solver.log }

/-- Collect the accesses, the partitions and their risky pairs. -/
def start (s : Subject) : Except Error Screening := do
  let ops := Operations.collect s
  let all := Partitioning.of s ops
  let escape := Escape.of s ops all
  let par ← Parallelism.analyze s ops
  let log := par.note s s.config.emptyLog
  let x : Screening := {
    ops, escape, par, log
    parts := all.pruneHidden escape
    aliases := AliasRefinement.start s.config log
    stats := { accesses := ops.accesses.size, partitions := all.parts.length
               spawnSites := ops.spawns.length } }
  let objsOf (p : PartId) : IdSet := ((all.get? p).map (·.objs)).getD ∅
  let seeded ←
    match x.aliases with
    | none => pure { x with
        parts := Id.run (x.parts.seedVisible s ops par escape fun _ _ _ => false) }
    | some _ => x.refineParts (x.parts.seedVisible s ops par escape fun a q p =>
        AliasRefinement.ruledOut (x.scope s) (ops.get a) q (objsOf p))
  return seeded.record .mhp

/-- Remove the pairs of instructions that are proved apart. -/
def filter (x : Screening) (apart : InstId → InstId → Bool) : Screening :=
  let inst (a : AccessId) := (x.ops.get a).inst
  { x with parts := Id.run (x.parts.filterPairs fun _ a b => apart (inst a) (inst b)) }

/-- Remove the pairs that locks or barriers keep apart. -/
def filterSync (x : Screening) (s : Subject) (locks : Locksets) : Screening :=
  let x := ({ x with log := Locksets.note s x.log }.filter (locks.haveCommon s)).record .lockset
  let barriers := Barriers.analyze s
  (x.filter (barriers.separates s.program)).record .barrier

/-- Remove the pairs on different instances of one heap object. -/
def filterHeap (x : Screening) (s : Subject) : Screening :=
  let inst (a : AccessId) := (x.ops.get a).inst
  let objOf (p : PartId) : Option ObjId :=
    (x.parts.get? p).bind fun part => single? part.objs.toList
  { x with parts := Id.run (x.parts.filterPairs fun p a b =>
      (objOf p).any fun o => s.differentInstances x.par x.escape o (inst a) (inst b)) }

/-- Remove the pairs that exclude each other by their guards.  All are judged by the pairs that are
risky before. -/
def filterGuards (x : Screening) (s : Subject) : Screening :=
  let inst (a : AccessId) := (x.ops.get a).inst
  let filtered : StateM Exclusion Partitioning := x.parts.filterPairs fun _ a b =>
    Exclusion.apart s x.ops x.par x.parts (inst a) (inst b)
  { x with parts := (filtered.run {}).1 }

/-- Remove the pairs that heap instances, joins of other threads or guards keep apart. -/
def filterFurther (x : Screening) (s : Subject) : Screening :=
  let par := x.par.refine s
  let x := { x with par, log := par.noteRefinement s x.log }
  let x := (x.filterHeap s).filter (par.joinApart s.program)
  (x.filterGuards s).record .furtherRefinement

/-- Remove the pairs whose pointers never meet. -/
def filterAliases (x : Screening) (s : Subject) : Except Error Screening := do
  let x ← x.refineParts (x.parts.filterPairs fun _ a b =>
    AliasRefinement.apart (x.scope s) (x.ops.get a) (x.ops.get b))
  match x.aliases with
  | none => return x.record .csRefinement
  | some r =>
    let c := r.counts
    let stats := { x.stats with
      refined := c.refined, unrefined := c.unrefined, outOfBudget := c.outOfBudget,
      cache := c.cache }
    let log := if c.outOfBudget > 0 then
        x.log.warn s!"{c.outOfBudget} alias queries ran out of budget"
      else x.log
    return { x with stats, log }.record .csRefinement

end Screening

namespace Detection

/-- Detect the races of a program. -/
def run (s : Subject) : Except Error Detection := do
  let locks := Locksets.analyze s
  let x ← Screening.start s
  let x ← ((x.filterSync s locks).filterFurther s).filterAliases s
  let parts := x.parts.pruneSafe
  let report := RaceReport.collect s x.ops parts
  let report := if s.config.detail then report.withDetails s locks else report
  let log := parts.noteOverruns x.log
  return {
    report
    plan := if s.config.annotate then some (.ofReport s.program report) else none
    stats := { x.stats with races := report.warnings.length }
    log := if s.config.annotate && s.config.detail then CheckPlan.note report log else log }

end Detection

/-- The state of the filters that learn while they are asked. -/
structure Recheck where
  exclusion : Exclusion := {}
  aliases : Option AliasRefinement

namespace Recheck

/-- A question to the filters. -/
abbrev Asking := StateT Recheck (Except Error)

/-- Whether two instructions exclude each other by their guards. -/
def exclude (s : Subject) (x : Screening) (i j : InstId) : Asking Bool := fun r =>
  let (apart, exclusion) := (Exclusion.apart s x.ops x.par x.parts i j).run r.exclusion
  .ok (apart, { r with exclusion })

/-- Whether the pointers of two accesses never meet. -/
def neverMeet (s : Subject) (x : Screening) (a b : Access) : Asking Bool := fun r =>
  match r.aliases with
  | none => .ok (false, r)
  | some aliases => do
    let (apart, aliases) := (AliasRefinement.apart (x.scope s) a b).run.run aliases
    return (← apart, { r with aliases := some aliases })

/-- Whether some of the access pairs may race on their partition. -/
def anyMeets (s : Subject) (x : Screening) : List (Partition × AccessId × AccessId) → Asking Bool
  | [] => return false
  | (p, a, b) :: rest => do
    let i := (x.ops.get a).inst
    let j := (x.ops.get b).inst
    let instances := (single? p.objs.toList).any fun o => s.differentInstances x.par x.escape o i j
    if instances then
      anyMeets s x rest
    else if ← neverMeet s x (x.ops.get a) (x.ops.get b) then
      anyMeets s x rest
    else
      return true

/-- The accesses of an instruction in each partition. -/
def accessesOf (x : Screening) (all : Partitioning) (i : InstId) : List (Partition × AccessId) :=
  all.parts.flatMap fun p => (p.live.filter fun a => (x.ops.get a).inst = i).map (p, ·)

/-- Whether two instructions may race: they may run in parallel, no filter keeps them apart, and
they may touch the same memory with a write among them. -/
def mayRace (s : Subject) (x : Screening) (all : Partitioning) (locks : Locksets)
    (barriers : Barriers) (i j : InstId) : Asking Bool := do
  let forks := x.par.mayRunParallel s.program i j
  if forks.isEmpty || x.par.joinApart s.program i j then
    return false
  else if ← exclude s x i j then
    return false
  else if barriers.separates s.program i j || locks.haveCommon s i j then
    return false
  else
    let others := accessesOf x all j
    let pairs := (accessesOf x all i).flatMap fun (p, a) =>
      (others.filter fun (q, b) => (all.isWrite a || all.isWrite b) && p.id = q.id &&
        forks.any (x.escape.escapesTo p.id)).map fun (_, b) => (p, a, b)
    anyMeets s x pairs

/-- Whether each of some pairs of instructions may race. -/
def run (s : Subject) (pairs : List (InstId × InstId)) : Except Error (List Bool) := do
  for (i, j) in pairs do
    for k in [i, j] do
      if k ≥ s.program.insts.size then throw (.unknownInstruction k)
  let x ← Screening.start s
  let all := Partitioning.of s x.ops
  let x := { x with
    par := x.par.refine s
    parts := Id.run
      ((all.pruneHidden x.escape).seedVisible s x.ops x.par x.escape fun _ _ _ => false) }
  let locks := Locksets.analyze s
  let barriers := Barriers.analyze s
  let (answers, _) ← (pairs.mapM fun (i, j) => mayRace s x all locks barriers i j).run
    { aliases := AliasRefinement.start s.config s.config.emptyLog }
  return answers

end Recheck

end DataRace
