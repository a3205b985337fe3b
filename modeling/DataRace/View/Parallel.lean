import DataRace.Parallel.Basic
import DataRace.View.Datum

/-!
# DataRace.View.Parallel

Parallel code as plain data.
-/

namespace DataRace

instance : View Blocker := ⟨fun
  | .inst i => view ("inst", i)
  | .block b => view ("block", b)⟩

instance : View ThreadSite := ⟨fun a =>
  .record [("matching", view a.matched), ("tid", view a.tidPtr), ("loop", view a.loop),
    ("exiting", view a.exiting), ("exit", view a.exit), ("offset", view a.offset),
    ("bound", view a.bound)]⟩

/-- The pairs of accessing instructions, each instruction with itself and the later ones. -/
def Operations.instPairs (ops : Operations) : List (InstId × InstId) := upperPairs ops.insts

namespace Parallelism

/-- What is known about the joins, in the order in which they were collected. -/
def joinsOf (m : Parallelism) (ops : Operations) : List (InstId × ThreadSite) :=
  ops.joins.filterMap fun i => m.joins[i]?.map (i, ·)

/-- A spawn with its joins and the code on both sides. -/
def viewSpawn (m : Parallelism) (s : Subject) (ops : Operations) (i : InstId) (spawn : ThreadSite) :
    Datum :=
  let p := s.program
  let j := m.matched.getD i {}
  let c := m.codeOf i
  .record [("site", view i), ("info", view spawn), ("failure", view (p.spawnFailure? i)),
    ("has_joins", view !j.blockers.isEmpty), ("join_spawn", view i),
    ("blockers", view (j.blockers.values.flatMap fun bs => bs)),
    ("blocked", view (p.instIds.filter (j.blocksInst p))),
    ("affected", view (p.funcIds.filterMap fun f => (m.affectedSites s f i).map (f, ·))),
    ("loop_matches", view (((m.joinsOf ops).filter fun (_, b) => spawn.alike p b).map (·.1))),
    ("recursive", view c.recursive), ("trunk", view c.trunk), ("branch", view c.branch)]

/-- All that is known about parallel code. -/
def viewAll (m : Parallelism) (s : Subject) (ops : Operations) : Datum :=
  let p := s.program
  .record [("spawns", view (m.spawns.toList.map fun (i, spawn) => m.viewSpawn s ops i spawn)),
    ("joins", view (m.joinsOf ops)), ("par_fors", view m.loops),
    ("points", view ((p.instIds.filter fun i => p.isInteresting i && !m.isSequential p i).map
      fun i => (i, m.pointsOf p i))),
    ("unmatched", view m.unmatchedJoins), ("log", view (m.note s s.config.emptyLog).text)]

/-- The accessing instructions that may run at the same time, with the forks and points. -/
def viewPairs (m : Parallelism) (s : Subject) (ops : Operations) : Datum :=
  let p := s.program
  view (ops.instPairs.filterMap fun (i, j) =>
    let sites := m.mayRunParallel p i j
    let points := m.parallelPoints p i j
    if sites.isEmpty && points.isEmpty then none else some (i, j, sites, points))

/-- The accessing instructions that may run at the same time, and those that joins of other threads
keep apart: under every fork, and fork by fork. -/
def viewRefined (m : Parallelism) (s : Subject) (ops : Operations) : List (String × Datum) :=
  let p := s.program
  let pairs := ops.instPairs
  let apart (spawn i j : InstId) := (m.keptApart p spawn i j).toOption.getD false
  [("refined", view (pairs.filter fun (i, j) => m.joinApart p i j)),
    ("per_spawn", view (pairs.flatMap fun (i, j) =>
      ((m.mayRunParallel p i j).toList.filter (apart · i j)).map (·, i, j))),
    ("parallel", view (pairs.filter fun (i, j) => !(m.mayRunParallel p i j).isEmpty))]

end Parallelism

end DataRace
