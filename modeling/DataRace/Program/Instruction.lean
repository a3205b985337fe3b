import DataRace.Program.Predicate

/-!
# DataRace.Program.Instruction

Handles, source locations and the operations an instruction can perform.

Every entity of a program is addressed by its position in the table that
owns it, so a handle is a natural number.
-/

namespace DataRace

/-- A function, by its position in the program's function table. -/
abbrev FuncId := Nat

/-- A basic block, numbered across the whole program. -/
abbrev BlockId := Nat

/-- An instruction, numbered across the whole program. -/
abbrev InstId := Nat

/-- A value: an instruction result, a parameter, an address or a constant. -/
abbrev ValueId := Nat

/-- A global variable. -/
abbrev GlobalId := Nat

/-- A place in a source file. -/
structure Location where
  file : String
  line : Nat
deriving DecidableEq, Inhabited

namespace Location

/-- The text of a location, file and line separated by a colon. -/
def text (l : Location) : String := s!"{l.file}:{l.line}"

/-- Locations sort by file name, then by line. -/
def compare (a b : Location) : Ordering :=
  (Ord.compare a.file b.file).then (Ord.compare a.line b.line)

end Location

/-- An arithmetic operator.  Operators the analyses do not interpret are `other`. -/
inductive Arith where
  | add
  | sub
  | mul
  | other
deriving DecidableEq, Inhabited

/-- What a call transfers control to. -/
inductive Target where
  /-- A function known from the text of the program. -/
  | direct (f : FuncId)
  /-- Whatever function the value points to. -/
  | indirect (v : ValueId)
deriving DecidableEq, Inhabited

/-- What an instruction does. -/
inductive Operation where
  /-- Allocate a fresh object with the given number of fields, none for a scalar. -/
  | alloc (heap : Bool) (fields : Nat)
  /-- Read through a pointer. -/
  | load (ptr : ValueId)
  /-- Write a value through a pointer. -/
  | store (ptr val : ValueId)
  /-- Project to a field; without an offset the field is chosen at run time. -/
  | project (base : ValueId) (offset : Option Nat) (index : Option ValueId)
  | cast (src : ValueId)
  | arith (op : Arith) (lhs rhs : ValueId)
  | compare (pred : Predicate) (lhs rhs : ValueId)
  /-- Choose a value by the block control came from. -/
  | phi (incoming : List (ValueId × BlockId))
  | call (target : Target) (args : List ValueId)
  | jump (target : BlockId)
  | branch (cond : ValueId) (whenTrue whenFalse : BlockId)
  | ret (val : Option ValueId)
  | unreachable
deriving DecidableEq, Inhabited

namespace Operation

/-- Whether the operation ends a basic block. -/
def isTerminator : Operation → Bool
  | jump _ | branch .. | ret _ | unreachable => true
  | _ => false

/-- The blocks a terminator may continue in, without repetition. -/
def successors : Operation → List BlockId
  | jump b => [b]
  | branch _ t e => if t = e then [t] else [t, e]
  | _ => []

/-- Whether this is a load, a store or a call: the operations reachability is recorded for. -/
def isInteresting : Operation → Bool
  | load _ | store .. | call .. => true
  | _ => false

/-- The value operands in the order in which they are read. -/
def operands : Operation → List ValueId
  | alloc .. | jump _ | unreachable => []
  | load p => [p]
  | store p v => [v, p]
  | project b _ i => b :: i.toList
  | cast s => [s]
  | arith _ l r => [l, r]
  | compare _ l r => [l, r]
  | phi ins => ins.map (·.1)
  | call (.direct _) args => args
  | call (.indirect v) args => args ++ [v]
  | branch c _ _ => [c]
  | ret v => v.toList

/-- Whether the operation defines a value. -/
def hasResult : Operation → Bool
  | store .. | jump _ | branch .. | ret _ | unreachable => false
  | _ => true

/-- Whether the operation chooses by the incoming block. -/
def isPhi : Operation → Bool
  | phi _ => true
  | _ => false

/-- Whether the operation returns from its function. -/
def isReturn : Operation → Bool
  | ret _ => true
  | _ => false

/-- Whether the operation is a call. -/
def isCall : Operation → Bool
  | call .. => true
  | _ => false

end Operation

end DataRace
