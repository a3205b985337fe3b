import DataRace.Program.CodeSet
import DataRace.Subject

/-!
# DataRace.Parallel.Reach

Which code runs after a point, or from the entry of a function on, when some
of it is cut off.

Code that runs only after a join of the threads in question is cut off.  A
block with such a join inside runs up to the join and leads nowhere.

* `Cut.after` is the code of one function that runs after an instruction;
* `Subject.functionsFrom` are the functions entered over calls and forks;
* `Subject.enter` follows the calls of code that is reached already.
-/

namespace DataRace

/-- The code of a function that joins cut off. -/
structure Cut where
  /-- What runs only after a join. -/
  code : CodeSet := ∅
  /-- The blocks with a join inside. -/
  joinBlocks : IdSet := ∅
deriving Inhabited

namespace Cut

/-- Whether nothing is cut off. -/
def isEmpty (c : Cut) : Bool := c.code.isEmpty

/-- The loads, stores and calls of a list of instructions up to a terminator, as far as they are
not cut off. -/
def openInsts (c : Cut) (p : Program) (is : List InstId) : List InstId :=
  (is.takeWhile fun i => !(p.op i).isTerminator).filter fun i =>
    p.isInteresting i && !c.code.covers p i

/-- Add what runs of a list of instructions. -/
def addInsts (c : Cut) (p : Program) (is : List InstId) (out : CodeSet) : CodeSet :=
  (c.openInsts p is).foldl .addInst out

/-- Add a block that control enters: the whole block, or what runs before a join inside. -/
def addBlock (c : Cut) (p : Program) (out : CodeSet) (b : BlockId) : CodeSet :=
  if c.joinBlocks.contains b then c.addInsts p (p.block b).insts out else out.addBlock b

/-- Add the blocks that control enters from some blocks on, without those inside already. -/
def fromBlocks (c : Cut) (p : Program) (start : List BlockId) (out : CodeSet) : CodeSet :=
  let isOpen (b : BlockId) := !out.blocks.contains b && !c.code.coversBlock p b
  let next (b : BlockId) := if c.joinBlocks.contains b then [] else (p.block b).succs.filter isOpen
  (reachable p.blocks.size next (start.filter isOpen)).foldl (c.addBlock p) out

/-- Add the code of a function that runs from its entry on. -/
def fromEntry (c : Cut) (p : Program) (f : FuncId) (out : CodeSet) : CodeSet :=
  c.fromBlocks p (p.func f).entry.toList out

/-- Add the code of one function that runs after an instruction.  The instruction itself is added
only when a cycle leads back to it. -/
def after (c : Cut) (p : Program) (out : CodeSet) (root : InstId) : CodeSet :=
  let b := p.blockOf root
  if out.covers p root then
    out
  else
    let out := c.addInsts p (p.instsAfter root) out
    if c.joinBlocks.contains b then out else c.fromBlocks p (p.block b).succs out

end Cut

namespace Subject

/-- The defined functions entered from some functions on, over calls and forks. -/
def functionsFrom (s : Subject) (start : List FuncId) : IdSet :=
  (reachable s.program.funcs.size (fun f => (s.calls.edgesFrom f).map (·.callee)) start).filter
    fun f => !(s.program.func f).isDeclaration

/-- The functions entered at the calls of a function that pass a test. -/
def enteredAt (s : Subject) (f : FuncId) (isTaken : InstId → Bool) : List FuncId :=
  ((s.program.funcInsts f).filter fun i => s.program.isCall i && isTaken i).flatMap fun i =>
    (s.calls.edgesAt i).map (·.callee)

/-- Add the functions entered from some functions on, the last of them first.  A function with a cut
is added as far as it runs before the cut, and only its calls that are inside by then are followed;
any other function is added as a whole, and all its calls are followed.  A function that is inside
as a whole from the start is not entered.  The calls at `excluded` are not followed. -/
def enter (s : Subject) (cutOf : FuncId → Cut) (excluded : Option InstId) (start : List FuncId)
    (out : CodeSet) : CodeSet :=
  let p := s.program
  let isOpen (f : FuncId) := !(p.func f).isDeclaration && !out.funcs.contains f
  let visit (code : CodeSet) (f : FuncId) : CodeSet × List FuncId :=
    let cut := cutOf f
    let code := if cut.isEmpty then code.addFunc f else cut.fromEntry p f code
    (code, (s.enteredAt f fun i =>
      excluded != some i && (cut.isEmpty || code.covers p i)).filter isOpen)
  Search.explore p.funcs.size visit ∅ (start.filter isOpen).reverse out

end Subject

end DataRace
