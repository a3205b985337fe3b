import DataRace.Program.CodeSet
import DataRace.Program.Value
import DataRace.Subject

/-!
# DataRace.Barrier

The code on the two sides of each barrier.

Callees first, a component is summarised by the barriers every call of it waits
at; such a call is a wait site too.  Callers first, the code that a wait
post-dominates runs before the barrier and the code it dominates runs after
it.  A function is on the side that all its calls share.

Barriers in loops are not told apart by iteration.
-/

namespace DataRace

/-- The code on the two sides of a barrier. -/
structure BarrierSides where
  before : CodeSet := ∅
  after : CodeSet := ∅
deriving Inhabited

/-- Whether two instructions are on opposite sides, each on one side only. -/
def BarrierSides.separates (b : BarrierSides) (p : Program) (i j : InstId) : Bool :=
  b.before.covers p i != b.before.covers p j &&
    b.before.covers p i != b.after.covers p i && b.before.covers p j != b.after.covers p j

/-- What is known about barriers. -/
structure Barriers where
  /-- The barriers that each component waits at. -/
  waits : IdMap IdSet := ∅
  /-- The wait sites of each function, calls included. -/
  sites : IdMap (IdMap IdSet) := ∅
  sides : IdMap BarrierSides := ∅
deriving Inhabited

namespace Barriers

/-- The barriers every call of a function waits at. -/
def mustWait (s : Subject) (b : Barriers) (f : FuncId) : Option IdSet := do
  b.waits[← s.components.of? f]?

/-- The barriers that an instruction waits at. -/
def waitsAt (s : Subject) (b : Barriers) (i : InstId) : IdSet :=
  let own : IdSet := Std.TreeSet.ofList ((s.program.barrierPtr i).toList.map s.program.stripCasts)
  ((s.calls.calleesAt i).filterMap (b.mustWait s)).foldl (· ∪ ·) own

/-- The wait sites of a function. -/
def sitesOf (s : Subject) (b : Barriers) (f : FuncId) : IdMap IdSet :=
  (s.program.funcInsts f).foldl (fun m i =>
    let waits := b.waitsAt s i
    if waits.isEmpty then m else m.insert i waits) ∅

/-- The barriers that a function with some wait sites waits at before it returns. -/
def waitedIn (s : Subject) (f : FuncId) (sites : IdMap IdSet) : IdSet :=
  match (s.flow f).ret with
  | none => ∅
  | some ret => sites.foldl (fun u i waits => if s.dominates i ret then u ∪ waits else u) ∅

/-- Summarise a component. -/
def summarise (s : Subject) (b : Barriers) (c : ComponentId) : Barriers :=
  let found := (s.components.get c).members.map fun f => (f, b.sitesOf s f)
  { b with
    waits := b.waits.insert c (found.foldl (fun u (f, sites) => u ∪ waitedIn s f sites) ∅)
    sites := found.foldl (fun m (f, sites) => m.insert f sites) b.sites }

/-! ## The code around a wait -/

/-- Add the loads, stores and calls among some instructions, and the blocks reached from a block
along edges inside a set of blocks. -/
def addCode (p : Program) (out : CodeSet) (is : List InstId) (b : BlockId)
    (edges : BlockId → List BlockId) (isInside : BlockId → Bool) : CodeSet :=
  let next (c : BlockId) := (edges c).filter fun d => isInside d && !out.blocks.contains d
  let out := (is.filter p.isInteresting).foldl .addInst out
  (reachable p.blocks.size next (next b)).foldl .addBlock out

/-- Add the code that an instruction dominates, itself only when a cycle leads back to it. -/
def addDominated (s : Subject) (out : CodeSet) (i : InstId) : CodeSet :=
  let p := s.program
  if out.covers p i then
    out
  else
    addCode p out ((p.instsAfter i).takeWhile fun j => !(p.op j).isTerminator) (p.blockOf i)
      (fun b => (p.block b).succs) ((s.flowOf i).dom.dominates (p.blockOf i))

/-- Add the code that an instruction post-dominates, itself only when a cycle leads back to it. -/
def addPostDominated (s : Subject) (out : CodeSet) (i : InstId) : CodeSet :=
  let p := s.program
  if out.covers p i then
    out
  else
    addCode p out (p.instsBefore i) (p.blockOf i) (fun b => (p.block b).preds)
      ((s.flowOf i).postDom.dominates (p.blockOf i))

/-- Change the sides of a barrier. -/
def update (b : Barriers) (barrier : ValueId) (f : BarrierSides → BarrierSides) : Barriers :=
  { b with sides := b.sides.insert barrier (f (b.sides.getD barrier {})) }

/-- The barriers that have every call of a function on a side; none for a function without calls. -/
def sharedBy (s : Subject) (b : Barriers) (f : FuncId) (side : BarrierSides → CodeSet) :
    List ValueId :=
  let calls := s.callSites f
  if calls.isEmpty then []
  else (b.sides.toList.filter fun (_, x) => calls.all ((side x).covers s.program)).map (·.1)

/-- Find the code of a function on the sides of each barrier. -/
def place (s : Subject) (b : Barriers) (f : FuncId) : Barriers :=
  let before := b.sharedBy s f (·.before)
  let after := b.sharedBy s f (·.after)
  let b := before.foldl (fun b x => b.update x fun y => { y with before := y.before.addFunc f }) b
  let b := after.foldl (fun b x => b.update x fun y => { y with after := y.after.addFunc f }) b
  let waits := (b.sites.getD f ∅).toList.flatMap fun (i, barriers) => barriers.toList.map (i, ·)
  waits.foldl (fun b (i, x) => b.update x fun y =>
    { before := addPostDominated s y.before i, after := addDominated s y.after i }) b

/-- Find the sides of every barrier. -/
def analyze (s : Subject) : Barriers :=
  s.topDown.foldl (fun b c => (s.components.get c).members.foldl (place s) b)
    (s.bottomUp.foldl (summarise s) {})

/-- Whether some barrier separates two instructions. -/
def separates (b : Barriers) (p : Program) (i j : InstId) : Bool :=
  b.sides.any fun _ x => x.separates p i j

end Barriers

end DataRace
