import DataRace.Barrier
import DataRace.Guard.Exclusion
import DataRace.HeapInstance
import DataRace.Lockset
import DataRace.View.Parallel

/-!
# DataRace.View.Apart

What keeps accesses apart as plain data: locks, barriers, guards and heap
instances.
-/

namespace DataRace

/-- The locks held at each instruction, and the accesses they protect from each other. -/
def Locksets.viewAll (l : Locksets) (s : Subject) (ops : Operations) : Datum :=
  let pairs := ops.instPairs
  let mayHaveCommon (i j : InstId) :=
    match l.of? i, l.of? j with
    | some a, some b => Locksets.mayShare s a b
    | _, _ => false
  .record [("intra", view s.config.localLocksets), ("held", view l.held),
    ("funcs", view (s.program.funcIds.map fun f => (l.acquiredBy s f, l.releasedBy s f))),
    ("common", view (pairs.filter fun (i, j) => l.haveCommon s i j)),
    ("may_common", view (pairs.filter fun (i, j) => mayHaveCommon i j)),
    ("protected", view l.held.size), ("log", view (Locksets.note s s.config.emptyLog).text)]

/-- The sides of each barrier, and the accesses they separate. -/
def Barriers.viewAll (b : Barriers) (s : Subject) (ops : Operations) : Datum :=
  .record [("effects",
    view (b.sides.toList.map fun (x, sides) => (x, [sides.before, sides.after]))),
    ("must_wait", view (s.program.funcIds.map (b.mustWait s))),
    ("separated", view (ops.instPairs.filter fun (i, j) => b.separates s.program i j))]

/-- A comparison with the instruction it was read from. -/
def Comparison.viewGuard (g : Guard Comparison InstId) : Datum :=
  view s!"i{g.evidence}: {g.fact.text}"

/-- A test of a global with the instructions it was read from. -/
def GlobalTest.viewGuard (g : GlobalGuard) : Datum :=
  view s!"i{g.evidence.cmp} i{g.evidence.load}: {g.fact.text}"

/-- Tables of guards: comparisons in each function, comparisons with those of callers, and tests of
globals with those of callers. -/
structure GuardTables where
  own : GuardTable Comparison InstId := { inherits := false }
  all : GuardTable Comparison InstId := { inherits := true }
  tests : GuardTable GlobalTest GlobalTest.Evidence := { inherits := true }

/-- The guards of a block, and which blocks of the function its own guards imply. -/
def GuardTables.viewBlock (s : Subject) (others : List BlockId) (t : GuardTables) (b : BlockId) :
    Datum × GuardTables :=
  let p := s.program
  let (gs, own) := t.own.guards s (Comparison.read p) b
  let (hs, all) := t.all.guards s (Comparison.read p) b
  let (ts, tests) := t.tests.guards s (GlobalTest.read p) b
  let implied (c : BlockId) := b == c || Guard.implies gs (s.guardsAt (Comparison.read p) c)
  (view (b, gs.map Comparison.viewGuard, hs.map Comparison.viewGuard, ts.map GlobalTest.viewGuard,
    bits (others.map implied)), { own, all, tests })

/-- The guards of all blocks. -/
def Subject.viewGuards (s : Subject) : Datum :=
  let p := s.program
  let blocks := p.funcIds.flatMap fun f => (p.func f).blocks.map (·, (p.func f).blocks)
  let (rows, t) := blocks.foldl (fun (rows, t) (b, others) =>
    let (row, t) := GuardTables.viewBlock s others t b
    (rows ++ [row], t)) (([] : List Datum), ({} : GuardTables))
  let sizes := [t.own.byBlock.size, t.all.byBlock.size, t.tests.byBlock.size]
  .record [("blocks", view rows), ("lens", view sizes), ("empty", view (sizes.map (· == 0))),
    ("inter", view [t.own.inherits, t.all.inherits])]

/-- Where the addresses of allocations go, and the accesses to different instances of objects. -/
def Subject.viewHeap (s : Subject) (ops : Operations) (par : Parallelism) : Datum :=
  let x := Escape.of s ops (.of s ops)
  let apart (o : ObjId) := ops.instPairs.filter fun (i, j) => s.differentInstances par x o i j
  .record [("flows", view (s.pointers.allocObjs.keys.map fun i =>
      let flow := HeapFlow.of s x i
      (i, flow.spawn, flow.accesses, flow.calls))),
    ("different", view (((List.range s.pointers.objs.size).map fun o => (o, apart o)).filter
      fun (_, pairs) => !pairs.isEmpty))]

/-- The guards of accesses on globals, the parallel accesses that exclude each other, and which of
the given loads of a pointer may differ. -/
def Subject.viewExclusion (s : Subject) (ops : Operations) (par : Parallelism)
    (loads : List (ValueId × InstId × InstId)) : Datum :=
  let all := Partitioning.of s ops
  let x := Escape.of s ops all
  let m := Id.run ((all.pruneHidden x).seedVisible s ops par x fun _ _ _ => false)
  let run : StateM Exclusion (List (String × Datum)) := do
    let guards ← ops.insts.mapM fun i => do
      return (i, (← Exclusion.guardsOf s i).map (·.fact.text))
    let parallel := ops.instPairs.filter fun (i, j) => !(par.mayRunParallel s.program i j).isEmpty
    let refined ← parallel.filterM fun (i, j) => Exclusion.apart s ops par m i j
    let inconsistent ← loads.mapM fun (ptr, i, j) => Exclusion.mayDiffer s ops m ptr i j
    return [("guards", view guards), ("refined", view refined), ("inconsistent", view inconsistent)]
  let (fields, after) := run.run {}
  .record (fields ++ [("cond_vars", view after.globals.size)])

end DataRace
