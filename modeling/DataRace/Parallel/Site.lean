import DataRace.Flow.Induction
import DataRace.Subject

/-!
# DataRace.Parallel.Site

The sites that start threads and wait for them, with what is known about the
loop around them.

A site in a counting loop that walks an array of thread ids runs once for
every iteration, so a spawn loop and a join loop with equal bounds and equal
walks handle the same threads.
-/

namespace DataRace

/-- A spawn or a join. -/
structure ThreadSite where
  site : InstId
  /-- The spawn whose threads this join waits for. -/
  matched : Option InstId := none
  /-- The pointer to the thread id. -/
  tidPtr : Option ValueId := none
  /-- The loop around the site. -/
  loop : Option LoopId := none
  /-- The block in which the loop counts its iterations. -/
  exiting : Option BlockId := none
  /-- The block control leaves to from there. -/
  exit : Option BlockId := none
  /-- How the thread id moves from one iteration to the next. -/
  offset : Option Recurrence := none
  /-- What holds while the loop goes on. -/
  bound : Option ExitCondition := none
deriving Inhabited

/-- The successor taken when a spawn reports failure: the terminator of its block compares the
result with zero. -/
def Program.spawnFailure? (p : Program) (spawn : InstId) : Option BlockId := do
  let result ← p.result spawn
  let term ← (p.block (p.blockOf spawn)).terminator
  match p.op term with
  | .branch cond whenTrue whenFalse =>
    match ← p.defOp cond with
    | .compare pred lhs rhs =>
      let lhs := p.stripCasts lhs
      let rhs := p.stripCasts rhs
      let other ← if lhs = result then some rhs else if rhs = result then some lhs else none
      if (p.constValue other).any (· != 0) then
        none
      else
        -- Success is zero: a predicate that fails on equal operands holds on failure.
        some (if pred.eval 0 0 then whenFalse else whenTrue)
    | _ => none
  | _ => none

namespace ThreadSite

/-- The pointer to the thread id of a site.  A join must load the id it waits for. -/
def tidPointer? (p : Program) (site : InstId) : Option ValueId := do
  let tid ← p.threadId site
  if p.isSpawn site then
    some tid
  else
    match ← p.defOp (p.stripCasts tid) with
    | .load ptr => some ptr
    | _ => none

/-- The index of the innermost indexed projection a pointer goes through. -/
def indexOf? (p : Program) (v : ValueId) : Option ValueId :=
  match p.defOp v with
  | some (.project _ _ (some index)) => some index
  | some (.project base _ none) => if base < v then indexOf? p base else none
  | some (.cast src) => if src < v then indexOf? p src else none
  | _ => none
termination_by v

/-- The exit edge of a loop that is taken after the site ran in every iteration.  A spawn loop may
also be left where the spawn fails; a join must run in every iteration. -/
def countingExit? (s : Subject) (l : Loop) (site : InstId) : Option (BlockId × BlockId) :=
  let p := s.program
  let edges := l.exitEdges p
  if p.isSpawn site then
    if edges.length = 1 then edges.head?
    else edges.find? fun (_, exit) => p.spawnFailure? site != some exit
  else
    let b := p.blockOf site
    if l.uniqueLatch.any ((s.flow (p.block b).func).dom.dominates b) then edges.head? else none

/-- Gather what is known about a site. -/
def of (s : Subject) (site : InstId) : Except Error ThreadSite := do
  let p := s.program
  let loops := (s.flowOf site).loops
  let bare : ThreadSite := { site, tidPtr := tidPointer? p site }
  match bare.tidPtr.bind (indexOf? p) with
  | none => return bare
  | some index =>
    match ← Induction.recurrence p loops index with
    | none => return bare
    | some offset =>
      let moving := { bare with offset := some offset, loop := loops.loopOfInst p site }
      match moving.loop with
      | none => return moving
      | some l =>
        match countingExit? s (loops.get l) site with
        | none => return moving
        | some (exiting, exit) =>
          if (s.flowOf site).dom.dominates exiting exit then
            let bound ← Induction.exitCondition p loops l exiting
            return { moving with exiting := some exiting, exit := some exit, bound }
          else
            return moving

/-- Whether two sites run in loops with equal bounds and walk their thread ids alike. -/
def alike (p : Program) (a b : ThreadSite) : Bool :=
  match a.bound, b.bound, a.offset, b.offset with
  | some c, some d, some x, some y =>
    Induction.sameExitCondition p c d && Induction.sameStartAndStep p x y
  | _, _, _, _ => false

/-- How often the loop around a site iterates. -/
def tripCount (s : Subject) (a : ThreadSite) : Except Error (Option TripCount) :=
  match a.loop, a.exiting with
  | some l, some exiting => Induction.tripCount s.program (s.flowOf a.site).loops l exiting
  | _, _ => .ok none

end ThreadSite

end DataRace
