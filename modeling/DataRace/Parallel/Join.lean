import DataRace.Parallel.Reach
import DataRace.Parallel.Site

/-!
# DataRace.Parallel.Join

Which joins wait for the threads of a spawn, and the code they cut off.

A join is matched only when it waits for every thread of the spawn: the thread
ids may be the same place, and the two run equally often.  In loops of one
function that takes equal trip counts and equal walks over the thread ids, and
then it is the exit of the join loop that cuts code off.
-/

namespace DataRace

/-- Where code is cut off. -/
inductive Blocker where
  /-- The code after a join. -/
  | inst (i : InstId)
  /-- The code from the exit of a join loop on. -/
  | block (b : BlockId)
deriving DecidableEq, Inhabited

/-- Add the code that a blocker dominates. -/
def Cut.add (p : Program) (dom : Dominance) (c : Cut) : Blocker → Cut
  | .inst i =>
    let b := p.blockOf i
    let below := ((dom.descendants b).filter (· != b)).foldl .addBlock c.code
    { code := ({} : Cut).addInsts p (p.instsAfter i) below
      joinBlocks := c.joinBlocks.insert b }
  | .block b => { c with code := (dom.descendants b).foldl .addBlock c.code }

/-- The joins matched to one spawn. -/
structure JoinMatch where
  /-- The blockers in each function, in the order of the joins. -/
  blockers : IdMap (List Blocker) := ∅
  /-- The code they cut off. -/
  cuts : IdMap Cut := ∅
deriving Inhabited

namespace JoinMatch

/-- The blockers in a function. -/
def blockersIn (m : JoinMatch) (f : FuncId) : List Blocker := m.blockers.getD f []

/-- The code of a function that is cut off. -/
def cutIn (m : JoinMatch) (f : FuncId) : Cut := m.cuts.getD f {}

/-- Whether an instruction is cut off. -/
def blocksInst (m : JoinMatch) (p : Program) (i : InstId) : Bool :=
  m.cuts.any fun _ c => c.code.covers p i

/-- The exit of the join loop, when it waits for every thread that the spawn loop of the same
function starts. -/
def loopExit? (s : Subject) (spawn join : ThreadSite) : Except Error (Option BlockId) := do
  let p := s.program
  match spawn.loop, join.loop with
  | some _, some joinLoop =>
    match ← spawn.tripCount s with
    | none => return none
    | some spawned =>
      match ← join.tripCount s with
      | none => return none
      | some joined =>
        match spawn.offset, join.offset, ((s.flowOf spawn.site).loops.get joinLoop).exitEdges p with
        | some x, some y, [(exiting, exit)] =>
          if Induction.sameTripCount p spawned joined && Induction.sameStartAndStep p x y &&
              (s.flowOf spawn.site).dom.dominates exiting exit then
            return some exit
          else
            return none
        | _, _, _ => return none
  | _, _ => return none

/-- Where a join cuts off code that runs beside the threads of a spawn. -/
def blocker? (s : Subject) (spawn join : ThreadSite) : Except Error (Option Blocker) := do
  match spawn.tidPtr, join.tidPtr with
  | some spawnTid, some joinTid =>
    if !s.pointers.mayAlias spawnTid joinTid then
      return none
    else if s.program.funcOf join.site = s.program.funcOf spawn.site then
      if spawn.loop = join.loop then return some (.inst join.site)
      else return (← loopExit? s spawn join).map .block
    else if s.isSingleton spawnTid then
      return some (.inst join.site)
    else if spawn.alike s.program join then
      return join.exit.map .block
    else
      return none
  | _, _ => return none

/-- The joins of a spawn from the blocker of each join. -/
def ofBlockers (s : Subject) (found : List (InstId × Blocker)) : JoinMatch :=
  let blockers : IdMap (List Blocker) := found.foldl (fun m (join, b) =>
    let f := s.program.funcOf join
    m.insert f (m.getD f [] ++ [b])) ∅
  { blockers
    cuts := blockers.map fun f bs => bs.foldl (Cut.add s.program (s.flow f).dom) {} }

/-- Match a spawn against all joins. -/
def of (s : Subject) (spawn : ThreadSite) (joins : List ThreadSite) :
    Except Error (List InstId × JoinMatch) := do
  let found ← joins.filterMapM fun join => do
    return (← blocker? s spawn join).map (join.site, ·)
  return (found.map (·.1), ofBlockers s found)

end JoinMatch

end DataRace
