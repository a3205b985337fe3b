import DataRace.Error
import DataRace.Program.Text

/-!
# DataRace.Program.Builder

Programs are built one entity at a time and checked when they are finished.

A `Build` step extends the tables.  Constants and the null pointer are shared:
asking for one again answers the same value.  `Builder.finish` refuses a
program with a defect and otherwise fills in the edges between blocks and the
users of every value:

* the successors of a block are those of its last instruction;
* its predecessors are the blocks that have it as a successor, ascending;
* the users of a value are the instructions that read it, ascending.
-/

namespace DataRace

/-- Why a program is refused. -/
inductive Defect where
  | definedTwice (func : String)
  | afterTerminator (block : BlockId)
  | emptyBlock (block : BlockId) (func : String)
  | noTerminator (block : BlockId) (func : String)
  | leavesFunction (block : BlockId)
  | manyReturns (func : String) (count : Nat)
deriving DecidableEq, Inhabited

/-- The wording of a defect. -/
def Defect.message : Defect → String
  | definedTwice f => "function " ++ f ++ " defined twice"
  | afterTerminator b => "instruction appended after the terminator of " ++ handle "bb" b
  | emptyBlock b f => "block " ++ handle "bb" b ++ " of " ++ f ++ " is empty"
  | noTerminator b f => "block " ++ handle "bb" b ++ " of " ++ f ++ " has no terminator"
  | leavesFunction b => "branch from " ++ handle "bb" b ++ " leaves its function"
  | manyReturns f n => "function " ++ f ++ s!" has {n} return instructions"

/-- A program under construction. -/
structure Builder where
  program : Program := .empty
  /-- The first defect noticed while building. -/
  defect : Option Defect := none
deriving Inhabited

/-- A step that extends the program under construction. -/
abbrev Build := StateM Builder

/-- Where instructions are appended: the function they are for, the block they go to, and the
location they carry. -/
structure Cursor where
  func : FuncId
  block : BlockId
  loc : Option Location := none
deriving Inhabited

/-- Note a defect; only the first one is kept. -/
def Builder.blame (b : Builder) (d : Defect) : Builder :=
  { b with defect := b.defect <|> some d }

namespace Build

/-- Add a value. -/
def newValue (d : Definition) : Build ValueId := fun b =>
  let p := b.program
  (p.values.size, { b with program := { p with values := p.values.push ⟨d, []⟩ } })

/-- The value with that definition, added when there is none yet. -/
def sharedValue (d : Definition) : Build ValueId := fun b =>
  match b.program.values.findIdx? (·.definition = d) with
  | some v => (v, b)
  | none => newValue d b

/-- The value of an integer constant. -/
def const (c : Int64) : Build ValueId := sharedValue (.const c)

/-- The value of the null pointer. -/
def null : Build ValueId := sharedValue .null

/-- Add a global variable; answers its address. -/
def addGlobal (name : String) (fields : Nat) (loc : Option Location) : Build ValueId := do
  let id := (← get).program.globals.size
  let addr ← newValue (.global id)
  modify fun b => { b with
    program := { b.program with globals := b.program.globals.push ⟨name, fields, addr, loc⟩ } }
  return addr

/-- Declare a function, unless one of that name is known already. -/
def declare (name : String) (params : Nat) : Build FuncId := do
  match (← get).program.funcNamed? name with
  | some f => return f
  | none =>
    let id := (← get).program.funcs.size
    let addr ← newValue (.function id)
    let params ← (List.range params).mapM fun k => newValue (.param id k)
    modify fun b => { b with
      program := { b.program with funcs := b.program.funcs.push ⟨name, params, [], addr⟩ } }
    return id

/-- Add an empty block to a function. -/
def newBlock (f : FuncId) : Build BlockId := fun b =>
  let p := b.program
  let id := p.blocks.size
  (id, { b with program := { p with
    blocks := p.blocks.push ⟨f, [], [], []⟩
    funcs := p.funcs.modify f fun fn => { fn with blocks := fn.blocks ++ [id] } } })

/-- Start the body of a function in a fresh entry block. -/
def beginBody (f : FuncId) : Build Cursor := do
  unless ((← get).program.func f).isDeclaration do
    modify fun b => b.blame (.definedTwice (b.program.func f).name)
  return { func := f, block := ← newBlock f }

/-- Whether the block already has its terminator. -/
def isClosed (p : Program) (b : BlockId) : Bool :=
  (p.block b).terminator.any fun t => (p.op t).isTerminator

/-- Append an instruction at the cursor. -/
def append (c : Cursor) (op : Operation) : Build InstId := do
  modify fun b => if isClosed b.program c.block then b.blame (.afterTerminator c.block) else b
  let id := (← get).program.insts.size
  let result ← if op.hasResult then some <$> newValue (.inst id) else pure none
  modify fun b =>
    let p := b.program
    { b with program := { p with
      insts := p.insts.push
        { func := c.func, block := c.block, pos := (p.block c.block).insts.length, op, result,
          loc := c.loc }
      blocks := p.blocks.modify c.block fun bl => { bl with insts := bl.insts ++ [id] } } }
  return id

end Build

namespace Builder

/-- A parameter of a function. -/
def param (b : Builder) (f : FuncId) (index : Nat) : Except Error ValueId :=
  match (b.program.func f).params[index]? with
  | some v => .ok v
  | none => .error .outOfRange

/-- The value an instruction defines; one that defines none is out of range. -/
def resultOf (b : Builder) (i : InstId) : Except Error ValueId :=
  match b.program.result i with
  | some v => .ok v
  | none => .error .outOfRange

/-- Add an input to a phi.  Any other instruction is left as it is; a value that no instruction
defines is out of range. -/
def addIncoming (b : Builder) (phi val : ValueId) (source : BlockId) : Except Error Builder :=
  match b.program.defInst phi with
  | none => .error .outOfRange
  | some i => .ok { b with program := { b.program with
      insts := b.program.insts.modify i fun inst =>
        match inst.op with
        | .phi ins => { inst with op := .phi (ins ++ [(val, source)]) }
        | _ => inst } }

/-! ## Finishing -/

/-- The successors a block has by its terminator. -/
def successorsOf (p : Program) (b : BlockId) : List BlockId :=
  match (p.block b).terminator with
  | some t => (p.op t).successors
  | none => []

/-- What is wrong with a block. -/
def blockDefect (p : Program) (b : BlockId) : Option Defect :=
  let block := p.block b
  match block.terminator with
  | none => some (.emptyBlock b (p.func block.func).name)
  | some t =>
    if !(p.op t).isTerminator then
      some (.noTerminator b (p.func block.func).name)
    else if (p.op t).successors.any fun s => (p.block s).func != block.func then
      some (.leavesFunction b)
    else
      none

/-- What is wrong with a function: more than one of its blocks returns. -/
def functionDefect (p : Program) (f : FuncId) : Option Defect :=
  let returns := (p.func f).blocks.countP fun b => (p.blockReturn b).isSome
  if returns > 1 then some (.manyReturns (p.func f).name returns) else none

/-- The first defect of the tables, blocks before functions. -/
def tableDefect (p : Program) : Option Defect :=
  (List.range p.blocks.size).findSome? (blockDefect p) <|>
    p.funcIds.findSome? (functionDefect p)

/-- The blocks with their successors. -/
def withSuccs (p : Program) : Array Block :=
  p.blocks.mapIdx fun b block => { block with succs := successorsOf p b }

/-- Note a block as a predecessor. -/
def addPred (a : BlockId) (block : Block) : Block := { block with preds := block.preds ++ [a] }

/-- Note a block as a predecessor of its successors. -/
def addPreds (blocks : Array Block) (a : BlockId) : Array Block :=
  (blocks.getD a default).succs.foldl (fun blocks s => blocks.modify s (addPred a)) blocks

/-- Note an instruction as a user of a value, unless it is the one noted last. -/
def addUser (i : InstId) (value : Value) : Value :=
  if value.users.getLast? = some i then value else { value with users := value.users ++ [i] }

/-- Note an instruction as a user of its operands. -/
def addUses (p : Program) (values : Array Value) (i : InstId) : Array Value :=
  (p.op i).operands.foldl (fun values v => values.modify v (addUser i)) values

/-- Fill in successors, then predecessors, and users. -/
def link (p : Program) : Program :=
  { p with
    blocks := (List.range p.blocks.size).foldl addPreds (withSuccs p)
    values := p.instIds.foldl (addUses p) p.values }

/-- Check and complete the program. -/
def finish (b : Builder) : Except Error Program :=
  match b.defect <|> tableDefect b.program with
  | some d => .error (.malformedProgram d.message)
  | none => .ok (link b.program)

end Builder

end DataRace
