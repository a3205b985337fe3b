import DataRace.Collection
import DataRace.Program.Basic

/-!
# DataRace.Program.CodeSet

Sets of code at mixed granularity: whole functions where possible, whole
blocks where only part of a function is meant, single instructions where a
block is cut.
-/

namespace DataRace

/-- Functions, blocks and instructions. -/
structure CodeSet where
  funcs : IdSet := ∅
  blocks : IdSet := ∅
  insts : IdSet := ∅
deriving Inhabited

namespace CodeSet

instance : EmptyCollection CodeSet := ⟨{}⟩

def addFunc (c : CodeSet) (f : FuncId) : CodeSet := { c with funcs := c.funcs.insert f }

def addBlock (c : CodeSet) (b : BlockId) : CodeSet := { c with blocks := c.blocks.insert b }

def addInst (c : CodeSet) (i : InstId) : CodeSet := { c with insts := c.insts.insert i }

/-- Whether an instruction is inside at any granularity. -/
def covers (c : CodeSet) (p : Program) (i : InstId) : Bool :=
  c.funcs.contains (p.funcOf i) || c.blocks.contains (p.blockOf i) || c.insts.contains i

/-- Whether a block is inside as a whole. -/
def coversBlock (c : CodeSet) (p : Program) (b : BlockId) : Bool :=
  c.funcs.contains (p.block b).func || c.blocks.contains b

def isEmpty (c : CodeSet) : Bool := c.funcs.isEmpty && c.blocks.isEmpty && c.insts.isEmpty

/-- Drop what is inside at a coarser granularity already. -/
def reduce (c : CodeSet) (p : Program) : CodeSet where
  funcs := c.funcs
  blocks := c.blocks.filter fun b => !c.funcs.contains (p.block b).func
  insts := c.insts.filter fun i =>
    !c.blocks.contains (p.blockOf i) && !c.funcs.contains (p.funcOf i)

end CodeSet

end DataRace
