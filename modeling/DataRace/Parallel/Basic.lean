import DataRace.Access
import DataRace.Parallel.Join
import DataRace.Parallel.Point
import DataRace.Program.Text

/-!
# DataRace.Parallel.Basic

Which instructions may run at the same time.

Two instructions may run in parallel under a fork when one runs on the forking
thread after the fork took effect, and the other on the forked thread.  A
spawn takes effect after the spawn itself and after every call that may return
while its threads still run.

* `Parallelism.analyze` finds the code on both sides of every fork, and inverts it into an index
  (`PointIndex`);
* `Parallelism.pointsOf` looks up the sides of forks an instruction is on;
* `Parallelism.mayRunParallel` are the forks under which two instructions may
  run at the same time;
* `Parallelism.refine` follows joins that other threads perform.
-/

namespace DataRace

/-- The code on both sides of a fork. -/
structure ForkCode where
  trunk : CodeSet := ∅
  branch : CodeSet := ∅
  /-- The fork takes effect in a recursive component. -/
  recursive : Bool := false
deriving Inhabited

/-- Whether an instruction is on either side. -/
def ForkCode.covers (c : ForkCode) (p : Program) (i : InstId) : Bool :=
  c.trunk.covers p i || c.branch.covers p i

/-! ## The index of code -/

/-- The sides of forks that functions, blocks and instructions are on. -/
structure PointIndex where
  funcs : IdMap (List Point) := ∅
  blocks : IdMap (List Point) := ∅
  insts : IdMap (List Point) := ∅

namespace PointIndex

/-- Add points for every member of a set. -/
def push (index : IdMap (List Point)) (ids : IdSet) (points : List Point) : IdMap (List Point) :=
  ids.foldl (fun index x => index.insert x (index.getD x [] ++ points)) index

/-- Add the sides of a fork for the code on them.  A branch has functions only. -/
def addFork (index : PointIndex) (spawn : InstId) (c : ForkCode) : PointIndex where
  funcs := push (push index.funcs c.trunk.funcs [.trunk spawn]) c.branch.funcs [.branch spawn]
  blocks := push index.blocks c.trunk.blocks [.trunk spawn]
  insts := push index.insts c.trunk.insts [.trunk spawn]

/-- Every iteration of a parallel loop runs beside the others. -/
def addLoop (index : PointIndex) (site : InstId) (c : CodeSet) : PointIndex :=
  { index with funcs := push index.funcs c.funcs [.trunk site, .branch site] }

/-- Invert the code of forks and parallel loops. -/
def ofCode (code : IdMap ForkCode) (loops : IdMap CodeSet) : PointIndex :=
  loops.foldl addLoop (code.foldl addFork {})

end PointIndex

/-- The code that may run beside other code. -/
structure Parallelism where
  spawns : IdMap ThreadSite
  joins : IdMap ThreadSite
  /-- The joins of each spawn. -/
  matched : IdMap JoinMatch
  /-- For every component the spawns that take effect there, and where. -/
  effects : IdMap (IdMap IdSet)
  code : IdMap ForkCode
  /-- The functions that run in each parallel loop. -/
  loops : IdMap CodeSet
  points : PointIndex := .ofCode code loops
  /-- For a spawn the code left without another spawn whose joins its threads perform. -/
  refined : Option (IdMap (IdMap ForkCode)) := none
  /-- The index is that of the code. -/
  points_eq : points = .ofCode code loops := by rfl

instance : Inhabited Parallelism := ⟨{
  spawns := ∅, joins := ∅, matched := ∅, effects := ∅, code := ∅, loops := ∅ }⟩

namespace Parallelism

/-! ## Where spawns take effect -/

/-- Whether threads of a spawn may still run when a function returns. -/
def outlives (s : Subject) (m : JoinMatch) (spawn : InstId) (f : FuncId) : Bool :=
  let ff := s.flow f
  s.program.funcOf spawn != f ||
    match ff.ret with
    | none => false
    | some ret => !(m.blockersIn f).any fun
      | .inst i => ff.dom.dominatesInst s.program i ret
      | .block b => ff.dom.dominates b (s.program.blockOf ret)

/-- Note that a spawn takes effect at a site in a component. -/
def addEffect (effects : IdMap (IdMap IdSet)) (c : ComponentId) (spawn site : InstId) :
    IdMap (IdMap IdSet) :=
  effects.insert c (IdMap.addTo (effects.getD c ∅) spawn site)

/-- Carry the spawns whose threads outlive a component to its callers. -/
def spread (s : Subject) (matched : IdMap JoinMatch) (effects : IdMap (IdMap IdSet))
    (c : ComponentId) : IdMap (IdMap IdSet) :=
  let comp := s.components.get c
  let spawns := (effects.getD c ∅).keys.filter fun spawn =>
    outlives s (matched.getD spawn {}) spawn comp.rep
  spawns.foldl (fun effects spawn =>
    (s.incomingCalls comp).foldl (fun effects e =>
      match s.components.of? e.caller with
      | some caller => addEffect effects caller spawn e.site
      | none => effects) effects) effects

/-- Where every spawn takes effect, component by component. -/
def effectsOf (s : Subject) (spawns : List InstId) (matched : IdMap JoinMatch) :
    IdMap (IdMap IdSet) :=
  let own := spawns.foldl (fun effects spawn =>
    match s.components.of? (s.program.funcOf spawn) with
    | some c => addEffect effects c spawn spawn
    | none => effects) ∅
  s.bottomUp.foldl (spread s matched) own

/-- The live components in which a spawn takes effect, callers first, with the sites. -/
def effectSites (s : Subject) (effects : IdMap (IdMap IdSet)) (spawn : InstId) :
    List (Component × IdSet) :=
  s.topDown.filterMap fun c => ((effects.getD c ∅)[spawn]?).map (s.components.get c, ·)

/-! ## The two sides of a fork -/

/-- Add the trunk code of a spawn in one component: what runs after the sites, and the functions
entered from there.  All of a recursive component may run again. -/
def addTrunk (s : Subject) (m : JoinMatch) (excluded : Option InstId) (trunk : CodeSet)
    (at_ : Component × IdSet) : CodeSet :=
  let p := s.program
  let (c, sites) := at_
  let trunk := if c.recursive then c.members.foldl .addFunc trunk else trunk
  let trunk := sites.foldl (fun trunk root =>
    if trunk.funcs.contains (p.funcOf root) then trunk
    else (m.cutIn (p.funcOf root)).after p trunk root) trunk
  let entered := c.members.flatMap fun f =>
    s.enteredAt f fun i => excluded != some i && trunk.covers p i
  s.enter m.cutIn excluded entered trunk

/-- The code after a spawn on the spawning thread. -/
def trunkOf (s : Subject) (m : JoinMatch) (sites : List (Component × IdSet))
    (excluded : Option InstId) : CodeSet :=
  sites.foldl (addTrunk s m excluded) ∅

/-- The routines started at a site. -/
def started (s : Subject) (site : InstId) : List FuncId := (s.calls.edgesAt site).map (·.callee)

/-- The code on both sides of a spawn. -/
def forkCode (s : Subject) (m : JoinMatch) (spawn : InstId) (sites : List (Component × IdSet)) :
    ForkCode where
  trunk := (trunkOf s m sites none).reduce s.program
  branch := if sites.isEmpty then ∅ else { funcs := s.functionsFrom (started s spawn) }
  recursive := sites.any (·.1.recursive)

/-- The code on both sides of a spawn when the threads of another spawn are not followed and the
forked threads stop at its joins. -/
def refinedCode (s : Subject) (m other : JoinMatch) (spawn excluded : InstId)
    (sites : List (Component × IdSet)) : ForkCode where
  trunk := trunkOf s m sites (some excluded)
  branch := if sites.isEmpty then ∅ else s.enter other.cutIn none (started s spawn) ∅
  recursive := sites.any (·.1.recursive)

/-! ## The analysis -/

/-- Record for each join the last spawn it is matched to. -/
def recordMatches (joins : IdMap ThreadSite) (spawn : InstId) (found : List InstId) :
    IdMap ThreadSite :=
  found.foldl (fun joins join => joins.modify join fun j => { j with matched := some spawn }) joins

/-- Find the code on both sides of every fork, and index it. -/
def analyze (s : Subject) (ops : Operations) : Except Error Parallelism := do
  let sitesOf (is : List InstId) : Except Error (IdMap ThreadSite) :=
    is.foldlM (fun m i => do return m.insert i (← ThreadSite.of s i)) ∅
  let spawns ← sitesOf ops.spawns
  let joins ← sitesOf ops.joins
  let found ← spawns.toList.mapM fun (i, spawn) => do
    return (i, ← JoinMatch.of s spawn joins.values)
  let matched : IdMap JoinMatch := found.foldl (fun m (i, _, j) => m.insert i j) ∅
  let effects := effectsOf s spawns.keys matched
  return {
    spawns
    joins := found.foldl (fun joins (i, is, _) => recordMatches joins i is) joins
    matched
    effects
    code := spawns.map fun i _ => forkCode s (matched.getD i {}) i (effectSites s effects i)
    loops := ops.parallelFors.foldl (fun m i =>
      m.insert i { funcs := s.functionsFrom (started s i) }) ∅ }

/-- The joins that no spawn is matched to. -/
def unmatchedJoins (m : Parallelism) : List InstId :=
  (m.joins.toList.filter fun (_, j) => j.matched.isNone).map (·.1)

/-- Note every fork that takes effect in a recursive component, once for each of its codes. -/
def noteRecursion (s : Subject) (m : Parallelism) (codes : InstId → Nat) (log : Log) : Log :=
  s.topDown.foldl (fun log c =>
    (m.effects.getD c ∅).keys.foldl (fun log spawn =>
      (List.replicate (codes spawn) ()).foldl (fun log _ =>
        s.noteRecursion (s.components.get c) "mhp" log) log) log) log

/-- Note what costs precision. -/
def note (s : Subject) (m : Parallelism) (log : Log) : Log :=
  let log := m.unmatchedJoins.foldl (fun log join =>
    log.info ("join site " ++ s.program.describe join ++ " is not matched to any spawn site")) log
  noteRecursion s m (fun _ => 1) log

/-- The code on both sides of a spawn. -/
def codeOf (m : Parallelism) (spawn : InstId) : ForkCode := m.code.getD spawn {}

def isParallelLoop (m : Parallelism) (site : InstId) : Bool := m.loops.contains site

/-- The sites in the component of a function at which a spawn takes effect. -/
def affectedSites (s : Subject) (m : Parallelism) (f : FuncId) (spawn : InstId) : Option IdSet := do
  (m.effects.getD (← s.components.of? f) ∅)[spawn]?

/-! ## Questions -/

/-- The sides of forks that an instruction is on: as a single instruction, through its block, then
through its function. -/
def pointsOf (m : Parallelism) (p : Program) (i : InstId) : List Point :=
  m.points.insts.getD i [] ++ m.points.blocks.getD (p.blockOf i) [] ++
    m.points.funcs.getD (p.funcOf i) []

/-- Whether an instruction runs beside no other: before the first fork, or after all joins. -/
def isSequential (m : Parallelism) (p : Program) (i : InstId) : Bool :=
  !m.points.insts.contains i && !m.points.blocks.contains (p.blockOf i) &&
    !m.points.funcs.contains (p.funcOf i)

/-- Whether two points are different sides of one fork. -/
def opposite (a b : Point) : Bool := a.spawn = b.spawn && a.side.opposite b.side

/-- The forks under which two instructions may run at the same time. -/
def mayRunParallel (m : Parallelism) (p : Program) (i j : InstId) : IdSet :=
  let others := m.pointsOf p j
  Std.TreeSet.ofList (((m.pointsOf p i).filter fun a => others.any (opposite a)).map (·.spawn))

/-- The pairs of points under which two instructions may run at the same time; for one instruction
with itself, each pair one way round only. -/
def parallelPoints (m : Parallelism) (p : Program) (i j : InstId) : List (Point × Point) :=
  let others := m.pointsOf p j
  let pairs := (m.pointsOf p i).flatMap fun a => (others.filter (opposite a)).map (a, ·)
  if i = j then
    pairs.foldl (fun kept (a, b) => if kept.contains (b, a) then kept else kept ++ [(a, b)]) []
  else
    pairs

/-! ## Refinement by joins of other threads -/

/-- The spawns that a join of other threads concerns: the join is on neither side of its own
spawn, so threads of another spawn perform it. -/
def joinedElsewhere (s : Subject) (m : Parallelism) : List (InstId × InstId) :=
  m.joins.toList.flatMap fun (join, info) =>
    match info.matched with
    | none => []
    | some own =>
      if (m.codeOf own).covers s.program join then []
      else (m.pointsOf s.program join).map fun a => (a.spawn, own)

/-- Find again the code of spawns whose threads perform joins of other spawns. -/
def refine (s : Subject) (m : Parallelism) : Parallelism :=
  let refined : IdMap (IdMap ForkCode) := (m.joinedElsewhere s).foldl (fun r (spawn, own) =>
    let code :=
      match m.matched[spawn]? with
      | some j => refinedCode s j (m.matched.getD own {}) spawn own (effectSites s m.effects spawn)
      | none => {}
    r.insert spawn ((r.getD spawn ∅).insert own code)) ∅
  { m with refined := some refined }

/-- Note the recursive components that the refinement meets. -/
def noteRefinement (s : Subject) (m : Parallelism) (log : Log) : Log :=
  noteRecursion s m (fun spawn => ((m.refined.getD ∅).getD spawn ∅).size) log

/-- Whether joins of other threads keep two instructions apart under a spawn. -/
def keptApart (m : Parallelism) (p : Program) (spawn i j : InstId) : Except Error Bool :=
  match m.refined with
  | none => .error (.notInitialized "mhp refinement")
  | some refined =>
    match refined[spawn]? with
    | none => .ok false
    | some codes => .ok (codes.values.all fun c => !c.covers p i && !c.covers p j)

/-- Whether joins of other threads keep two instructions apart under every fork. -/
def joinApart (m : Parallelism) (p : Program) (i j : InstId) : Bool :=
  i != j && (m.parallelPoints p i j).all fun (a, _) =>
    match m.keptApart p a.spawn i j with
    | .ok apart => apart
    | .error _ => false

end Parallelism

end DataRace
