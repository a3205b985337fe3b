import DataRace.Program.Instruction

/-!
# DataRace.Program.Basic

The whole program: flat tables of functions, blocks, instructions, values and
globals that refer to each other by handle.

A look-up with a handle outside its table answers the table's default entry;
the handles a finished program holds are all inside.
-/

namespace DataRace

/-- A function.  One without blocks is only declared. -/
structure Function where
  name : String
  params : List ValueId
  /-- The blocks of the body, the entry first. -/
  blocks : List BlockId
  /-- The address of the function as a value. -/
  addr : ValueId
deriving Inhabited

namespace Function

def isDeclaration (f : Function) : Bool := f.blocks.isEmpty

def entry (f : Function) : Option BlockId := f.blocks.head?

end Function

/-- A basic block. -/
structure Block where
  func : FuncId
  /-- The instructions in order; the last one ends the block. -/
  insts : List InstId
  succs : List BlockId
  preds : List BlockId
deriving Inhabited

/-- The instruction that ends the block. -/
def Block.terminator (b : Block) : Option InstId := b.insts.getLast?

/-- An instruction in its place. -/
structure Instruction where
  func : FuncId
  block : BlockId
  /-- The position inside the block. -/
  pos : Nat
  op : Operation
  /-- The value it defines. -/
  result : Option ValueId
  loc : Option Location
deriving Inhabited

/-- A global variable. -/
structure Global where
  name : String
  fields : Nat
  addr : ValueId
  loc : Option Location
deriving Inhabited

/-- How a value comes about. -/
inductive Definition where
  | inst (i : InstId)
  | param (func : FuncId) (index : Nat)
  | global (g : GlobalId)
  | function (f : FuncId)
  | const (c : Int64)
  | null
deriving DecidableEq, Inhabited

/-- A value with the instructions that read it. -/
structure Value where
  definition : Definition
  users : List InstId
deriving Inhabited

/-- The program under analysis. -/
structure Program where
  funcs : Array Function
  blocks : Array Block
  insts : Array Instruction
  values : Array Value
  globals : Array Global
deriving Inhabited

namespace Program

/-- The program without any entity. -/
def empty : Program := ⟨#[], #[], #[], #[], #[]⟩

def func (p : Program) (f : FuncId) : Function := p.funcs.getD f default

def block (p : Program) (b : BlockId) : Block := p.blocks.getD b default

def inst (p : Program) (i : InstId) : Instruction := p.insts.getD i default

def value (p : Program) (v : ValueId) : Value := p.values.getD v default

def global (p : Program) (g : GlobalId) : Global := p.globals.getD g default

/-- All function handles, ascending. -/
def funcIds (p : Program) : List FuncId := List.range p.funcs.size

/-- All instruction handles, ascending. -/
def instIds (p : Program) : List InstId := List.range p.insts.size

/-- All value handles, ascending. -/
def valueIds (p : Program) : List ValueId := List.range p.values.size

/-- The function of that name. -/
def funcNamed? (p : Program) (name : String) : Option FuncId := p.funcs.findIdx? (·.name == name)

/-- The function execution starts in. -/
def main? (p : Program) : Option FuncId := p.funcNamed? "main"

/-- The instructions of a function in the order of its blocks. -/
def funcInsts (p : Program) (f : FuncId) : List InstId :=
  (p.func f).blocks.flatMap fun b => (p.block b).insts

/-- What an instruction does. -/
def op (p : Program) (i : InstId) : Operation := (p.inst i).op

def funcOf (p : Program) (i : InstId) : FuncId := (p.inst i).func

def blockOf (p : Program) (i : InstId) : BlockId := (p.inst i).block

def result (p : Program) (i : InstId) : Option ValueId := (p.inst i).result

def users (p : Program) (v : ValueId) : List InstId := (p.value v).users

/-- The instruction that defines a value. -/
def defInst (p : Program) (v : ValueId) : Option InstId :=
  match (p.value v).definition with
  | .inst i => some i
  | _ => none

/-- The operation that computes a value. -/
def defOp (p : Program) (v : ValueId) : Option Operation := (p.defInst v).map p.op

def constValue (p : Program) (v : ValueId) : Option Int64 :=
  match (p.value v).definition with
  | .const c => some c
  | _ => none

/-- The global whose address the value is. -/
def asGlobal (p : Program) (v : ValueId) : Option GlobalId :=
  match (p.value v).definition with
  | .global g => some g
  | _ => none

/-- The function whose address the value is. -/
def asFunction (p : Program) (v : ValueId) : Option FuncId :=
  match (p.value v).definition with
  | .function f => some f
  | _ => none

/-- The next instruction of the same block. -/
def nextInst (p : Program) (i : InstId) : Option InstId :=
  (p.block (p.blockOf i)).insts[(p.inst i).pos + 1]?

/-- The instructions of the same block after an instruction. -/
def instsAfter (p : Program) (i : InstId) : List InstId :=
  (p.block (p.blockOf i)).insts.drop ((p.inst i).pos + 1)

/-- The instructions of the same block before an instruction. -/
def instsBefore (p : Program) (i : InstId) : List InstId :=
  (p.block (p.blockOf i)).insts.take (p.inst i).pos

/-- The first instruction of a block after its phis. -/
def firstInst (p : Program) (b : BlockId) : Option InstId :=
  (p.block b).insts.find? fun i => !(p.op i).isPhi

/-- The callee that the text of a call names. -/
def directCallee (p : Program) (i : InstId) : Option FuncId :=
  match p.op i with
  | .call (.direct f) _ => some f
  | _ => none

def callArgs (p : Program) (i : InstId) : List ValueId :=
  match p.op i with
  | .call _ args => args
  | _ => []

def isCall (p : Program) (i : InstId) : Bool := (p.op i).isCall

def isInteresting (p : Program) (i : InstId) : Bool := (p.op i).isInteresting

/-- The terminator of a block, when it is a return. -/
def blockReturn (p : Program) (b : BlockId) : Option InstId :=
  (p.block b).terminator.filter fun t => (p.op t).isReturn

/-- The return instruction of a function. -/
def returnOf (p : Program) (f : FuncId) : Option InstId :=
  (p.func f).blocks.findSome? p.blockReturn

end Program

end DataRace
