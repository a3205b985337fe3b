import DataRace.Flow.Search
import DataRace.Program.Basic

/-!
# DataRace.Flow.Dominance

Dominance between the blocks of a function, forwards from its entry and
backwards from its ends.

A block dominates another when both can be reached from the roots and the
second cannot be reached around the first.  Post-dominance is the same with
the edges turned round and the blocks without successors as roots.

The immediate dominators form a tree below a virtual root in front of the roots.
It is found by passes over the blocks in reverse postorder: the immediate
dominator of a block becomes the nearest common ancestor, in the tree so far, of
the blocks before it, until a pass changes nothing.
-/

namespace DataRace

/-- The edges of a function in one direction, with the blocks it starts from. -/
structure FlowGraph where
  /-- A bound on all block handles. -/
  size : Nat
  blocks : List BlockId
  roots : List BlockId
  next : BlockId → List BlockId

namespace FlowGraph

/-- From the entry along the edges. -/
def forward (p : Program) (f : FuncId) : FlowGraph where
  size := p.blocks.size
  blocks := (p.func f).blocks
  roots := (p.func f).entry.toList
  next b := (p.block b).succs

/-- From the blocks that end the function against the edges. -/
def backward (p : Program) (f : FuncId) : FlowGraph where
  size := p.blocks.size
  blocks := (p.func f).blocks
  roots := (p.func f).blocks.filter fun b => (p.block b).succs.isEmpty
  next b := (p.block b).preds

/-- The virtual root, a number beyond all blocks. -/
def virtualRoot (g : FlowGraph) : BlockId := g.size

/-- What follows a block, or the virtual root, within the function. -/
def after (g : FlowGraph) (x : BlockId) : List BlockId :=
  (if x = g.virtualRoot then g.roots else g.next x).filter g.blocks.contains

/-- What stands before a block, the virtual root last. -/
def before (g : FlowGraph) (x : BlockId) : List BlockId :=
  (g.blocks ++ [g.virtualRoot]).filter fun a => (g.after a).contains x

/-- The virtual root and the blocks that follow from it, in reverse postorder. -/
def order (g : FlowGraph) : List BlockId :=
  reversePostorder (g.virtualRoot + 1) g.after g.virtualRoot

end FlowGraph

/-! ## Immediate dominators -/

/-- What the passes read: where each block stands in the order, and what stands before it. -/
structure PassTables where
  order : List BlockId
  places : IdMap Nat
  before : IdMap (List BlockId)

namespace PassTables

/-- The tables of a flow graph. -/
def ofGraph (g : FlowGraph) : PassTables where
  order := g.order.filter (· != g.virtualRoot)
  places := g.order.zipIdx.foldl (fun m (x, k) => m.insert x k) ∅
  before := g.blocks.foldl (fun m x => m.insert x (g.before x)) ∅

variable (t : PassTables)

def place (x : BlockId) : Nat := t.places.getD x 0

/-- The nearest common ancestor of two blocks: climb from the one that stands later in the order
until they meet.  There is none when the steps do not suffice. -/
def meet (idom : IdMap BlockId) : Nat → BlockId → BlockId → Option BlockId
  | 0, _, _ => none
  | steps + 1, a, b =>
    if a = b then some a
    else if t.place b < t.place a then meet idom steps (idom.getD a a) b
    else if t.place a < t.place b then meet idom steps a (idom.getD b b)
    else none

/-- The meet of those blocks that have an immediate dominator already, if there are any. -/
def meetAll (idom : IdMap BlockId) (bs : List BlockId) : Option (Option BlockId) :=
  bs.foldlM (fun found b =>
    if idom.contains b then
      match found with
      | none => some (some b)
      | some c => (t.meet idom (t.place b + t.place c + 1) b c).map some
    else
      some found) none

/-- Bring the immediate dominator of a block up to date, and note a change. -/
def update (s : IdMap BlockId × Bool) (x : BlockId) : Option (IdMap BlockId × Bool) :=
  (t.meetAll s.1 (t.before.getD x [])).map fun
    | some d => if s.1[x]? = some d then s else (s.1.insert x d, true)
    | none => s

/-- Bring all blocks up to date in order. -/
def pass (idom : IdMap BlockId) : Option (IdMap BlockId × Bool) :=
  t.order.foldlM t.update (idom, false)

/-- Make passes until one changes nothing, unless that takes more of them than given. -/
def settle : Nat → IdMap BlockId → Option (IdMap BlockId)
  | 0, _ => none
  | passes + 1, idom => do
    let (idom, changed) ← t.pass idom
    if changed then settle passes idom else return idom

end PassTables

/-- The immediate dominator of each block that can be reached, and of the virtual root itself. -/
def FlowGraph.immediate? (g : FlowGraph) : Option (IdMap BlockId) :=
  (PassTables.ofGraph g).settle (g.blocks.length + 1)
    ((∅ : IdMap BlockId).insert g.virtualRoot g.virtualRoot)

/-- The dominance relation of a function as the tree of its immediate dominators. -/
structure Dominance where
  blocks : List BlockId
  /-- Whether this is post-dominance. -/
  post : Bool
  reached : IdSet
  /-- The immediate dominator of each block that has one. -/
  parents : IdMap BlockId
  /-- How deep each block is in the tree, unless it is at the top. -/
  depths : IdMap Nat
deriving Inhabited

namespace Dominance

/-- Dominance over a flow graph. -/
def ofGraph (post : Bool) (g : FlowGraph) : Dominance :=
  let order := g.order.filter (· != g.virtualRoot)
  let idom := g.immediate?.getD ∅
  let parents : IdMap BlockId := g.blocks.foldl (fun m b =>
    match idom[b]?.filter (· != g.virtualRoot) with
    | some d => m.insert b d
    | none => m) ∅
  { blocks := g.blocks
    post
    reached := Std.TreeSet.ofList order
    parents
    depths := order.foldl (fun m b =>
      match parents[b]? with
      | some d => m.insert b (m.getD d 0 + 1)
      | none => m) ∅ }

/-- Dominance from the entry of a function. -/
def dominators (p : Program) (f : FuncId) : Dominance := ofGraph false (.forward p f)

/-- Dominance from the ends of a function. -/
def postDominators (p : Program) (f : FuncId) : Dominance := ofGraph true (.backward p f)

/-- Whether a block of the function can be reached from the roots. -/
def isReachable (d : Dominance) (b : BlockId) : Bool := d.reached.contains b

/-- The immediate dominator. -/
def parent? (d : Dominance) (b : BlockId) : Option BlockId := d.parents[b]?

/-- How deep a block is in the tree. -/
def depthOf (d : Dominance) (b : BlockId) : Nat := d.depths.getD b 0

/-- Climb from a block as long as it is deeper than given, a bounded number of steps. -/
def climb (d : Dominance) (depth : Nat) : Nat → BlockId → Option BlockId
  | 0, b => some b
  | steps + 1, b =>
    if depth < d.depthOf b then (d.parent? b).bind (d.climb depth steps) else some b

/-- Whether `a` dominates `b`; a reachable block dominates itself. -/
def dominates (d : Dominance) (a b : BlockId) : Bool :=
  d.isReachable b && d.isReachable a && d.climb (d.depthOf a) (d.depthOf b) b == some a

def strictlyDominates (d : Dominance) (a b : BlockId) : Bool := a != b && d.dominates a b

/-- The blocks whose immediate dominator is `b`, in block order. -/
def children (d : Dominance) (b : BlockId) : List BlockId :=
  d.blocks.filter fun c => d.parent? c == some b

/-- The subtree of `b` down to a depth: the block, then the subtrees of its children from the last
child to the first. -/
def subtree (d : Dominance) : Nat → BlockId → List BlockId
  | 0, _ => []
  | depth + 1, b => b :: (d.children b).reverse.flatMap (d.subtree depth)

/-- A block of the function and all below it in the tree. -/
def descendants (d : Dominance) (b : BlockId) : List BlockId :=
  if d.blocks.contains b then d.subtree d.blocks.length b else []

/-- Dominance between instructions.  In one block the earlier instruction dominates the later, and
the other way round for post-dominance. -/
def dominatesInst (d : Dominance) (p : Program) (a b : InstId) : Bool :=
  let x := p.inst a
  let y := p.inst b
  if x.block = y.block then
    if d.post then y.pos ≤ x.pos else x.pos ≤ y.pos
  else
    d.dominates x.block y.block

/-- The blocks from one up the tree as far as another, which is left out, or to the top, within a
number of steps. -/
def wayUp (d : Dominance) (stop : Option BlockId) : Nat → Option BlockId → List BlockId
  | 0, _ | _, none => []
  | steps + 1, some b => if stop = some b then [] else b :: d.wayUp stop steps (d.parent? b)

/-- The blocks whose dominance ends at `x`: where control comes together, those from the reachable
predecessors up to the immediate dominator. -/
def endingAt (d : Dominance) (p : Program) (x : BlockId) : List BlockId :=
  let preds := (p.block x).preds
  if preds.length < 2 then []
  else (preds.filter d.isReachable).flatMap fun a =>
    d.wayUp (d.parent? x) (d.depthOf a + 1) (some a)

/-- The dominance frontier of every block that has one. -/
def frontier (d : Dominance) (p : Program) : IdMap IdSet :=
  d.blocks.foldl (fun m x => (d.endingAt p x).foldl (·.addTo · x) m) ∅

end Dominance

end DataRace
