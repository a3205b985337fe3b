import DataRace.Flow.Dominance

/-!
# DataRace.Flow.Loop

Natural loops of a function.

An edge to a block that dominates its source closes a loop; all such edges to
one header make one loop.  Loops are numbered by header.
-/

namespace DataRace

/-- A loop, by its position among the loops of its function. -/
abbrev LoopId := Nat

/-- A natural loop. -/
structure Loop where
  header : BlockId
  /-- The blocks of the loop, the header among them. -/
  blocks : IdSet
  /-- The blocks from which control returns to the header. -/
  latches : List BlockId
  /-- The blocks outside that control leaves to. -/
  exits : List BlockId
  /-- The only block outside from which the header is entered. -/
  preheader : Option BlockId
  /-- The smallest loop around this one. -/
  parent : Option LoopId := none
  /-- How deep it is nested, from 1. -/
  depth : Nat := 1
deriving Inhabited

/-- The element of a list with a single element. -/
def single? : List α → Option α
  | [a] => some a
  | _ => none

namespace Loop

def contains (l : Loop) (b : BlockId) : Bool := l.blocks.contains b

/-- The only block control leaves to. -/
def uniqueExit (l : Loop) : Option BlockId := single? l.exits

/-- The only block from which control returns to the header. -/
def uniqueLatch (l : Loop) : Option BlockId := single? l.latches

/-- The edges that leave the loop, by their source. -/
def exitEdges (l : Loop) (p : Program) : List (BlockId × BlockId) :=
  l.blocks.toList.flatMap fun b =>
    ((p.block b).succs.filter fun s => !l.contains s).map (b, ·)

/-- The reachable sources of edges into `h` that `h` dominates. -/
def latchesOf (p : Program) (d : Dominance) (h : BlockId) : List BlockId :=
  d.blocks.filter fun b => d.isReachable b && (p.block b).succs.contains h && d.dominates h b

/-- The header and every reachable block that reaches a latch without passing the header. -/
def bodyOf (p : Program) (d : Dominance) (h : BlockId) (latches : List BlockId) : IdSet :=
  reachable p.blocks.size
    (fun b => if b = h then [] else (p.block b).preds.filter d.isReachable) (h :: latches)

/-- The loop of a header, without its place among the others. -/
def ofHeader (p : Program) (d : Dominance) (h : BlockId) : Loop :=
  let latches := latchesOf p d h
  let blocks := bodyOf p d h latches
  { header := h
    blocks
    latches
    exits := (blocks.toList.flatMap fun b =>
      (p.block b).succs.filter fun s => !blocks.contains s).eraseDups
    preheader := single? ((p.block h).preds.filter fun b => !blocks.contains b) }

/-- The first of the smallest loops among the candidates. -/
def smallest? (loops : Array Loop) (candidates : List LoopId) : Option LoopId :=
  candidates.foldl (fun best j =>
    match best with
    | none => some j
    | some k =>
      if (loops.getD j default).blocks.size < (loops.getD k default).blocks.size then some j
      else best) none

/-- The smallest loop that is larger than loop `i` and holds its header. -/
def parentOf (loops : Array Loop) (i : LoopId) : Option LoopId :=
  let l := loops.getD i default
  smallest? loops ((List.range loops.size).filter fun j =>
    let m := loops.getD j default
    j != i && m.contains l.header && m.blocks.size > l.blocks.size)

/-- The length of the chain of parents from a loop on, within a bound. -/
def chainLength (loops : Array Loop) : Nat → Option LoopId → Nat
  | 0, _ | _, none => 0
  | bound + 1, some i => 1 + chainLength loops bound (loops.getD i default).parent

end Loop

/-- All loops of a function. -/
structure Loops where
  loops : Array Loop := #[]
  /-- The smallest loop around each block that is in one. -/
  innermost : IdMap LoopId := ∅
deriving Inhabited

namespace Loops

/-- The loops of a function. -/
def ofFunction (p : Program) (d : Dominance) : Loops :=
  let headers := d.blocks.filter fun h => !(Loop.latchesOf p d h).isEmpty
  let plain := (headers.map (Loop.ofHeader p d)).toArray
  let nested := plain.mapIdx fun i l => { l with parent := Loop.parentOf plain i }
  let loops := nested.mapIdx fun i l =>
    { l with depth := Loop.chainLength nested nested.size (some i) }
  { loops
    innermost := d.blocks.foldl (fun m b =>
      match Loop.smallest? loops ((List.range loops.size).filter fun j =>
          (loops.getD j default).contains b) with
      | some j => m.insert b j
      | none => m) ∅ }

def get (ls : Loops) (i : LoopId) : Loop := ls.loops.getD i default

/-- The smallest loop around a block. -/
def loopOf (ls : Loops) (b : BlockId) : Option LoopId := ls.innermost[b]?

/-- The smallest loop around an instruction. -/
def loopOfInst (ls : Loops) (p : Program) (i : InstId) : Option LoopId := ls.loopOf (p.blockOf i)

def isHeader (ls : Loops) (b : BlockId) : Bool := ls.loops.any (·.header == b)

def inLoop (ls : Loops) (b : BlockId) : Bool := ls.innermost.contains b

end Loops

end DataRace
