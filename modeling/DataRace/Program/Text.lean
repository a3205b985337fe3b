import DataRace.Program.Basic

/-!
# DataRace.Program.Text

How values and instructions read in a report.
-/

namespace DataRace

/-- A handle in a report: its kind's letters and its number. -/
def handle (letters : String) (n : Nat) : String := letters ++ toString n

namespace Text

/-- A constructor with its number, as in `ValueId(3)`. -/
def wrapped (name : String) (n : Nat) : String := name ++ "(" ++ toString n ++ ")"

/-- An optional part, as in `Some(3)` or `None`. -/
def optional (text : α → String) : Option α → String
  | some a => "Some(" ++ text a ++ ")"
  | none => "None"

/-- A named record with its fields in order. -/
def record (name : String) (fields : List (String × String)) : String :=
  name ++ " \x7b " ++ ", ".intercalate (fields.map fun (k, v) => k ++ ": " ++ v) ++ " \x7d"

end Text

open Text

/-- The word for an arithmetic operator. -/
def Arith.text : Arith → String
  | add => "Add"
  | sub => "Sub"
  | mul => "Mul"
  | other => "Other"

/-- The full form of an operation, every part spelled out.  Loads, stores and calls have a short
form in `Program.describe` and are not shown this way in a report. -/
def Operation.text : Operation → String
  | alloc heap fields => record "Alloc" [("heap", toString heap), ("fields", toString fields)]
  | load ptr => record "Load" [("ptr", value ptr)]
  | store ptr val => record "Store" [("ptr", value ptr), ("val", value val)]
  | project base offset index =>
    record "Gep" [("base", value base), ("offset", optional toString offset),
      ("index", optional value index)]
  | cast src => record "Cast" [("src", value src)]
  | arith op lhs rhs => record "BinOp" [("op", op.text), ("lhs", value lhs), ("rhs", value rhs)]
  | compare pred lhs rhs =>
    record "Cmp" [("pred", pred.mnemonic.capitalize), ("lhs", value lhs), ("rhs", value rhs)]
  | phi incoming =>
    record "Phi" [("incoming", "[" ++ ", ".intercalate
      (incoming.map fun (v, b) => "(" ++ value v ++ ", " ++ block b ++ ")") ++ "]")]
  | call target args =>
    record "Call" [("callee", match target with
      | .direct f => "Direct(" ++ wrapped "FuncId" f ++ ")"
      | .indirect v => "Indirect(" ++ value v ++ ")"),
      ("args", "[" ++ ", ".intercalate (args.map value) ++ "]")]
  | jump target => record "Br" [("target", block target)]
  | branch cond t e =>
      record "CondBr" [("cond", value cond), ("then_bb", block t), ("else_bb", block e)]
  | ret val => record "Ret" [("val", optional value val)]
  | unreachable => "Unreachable"
where
  value := wrapped "ValueId"
  block := wrapped "BlockId"

namespace Program

/-- The name of a value in a report. -/
def valueName (p : Program) (v : ValueId) : String :=
  match (p.value v).definition with
  | .inst i => handle "%" i
  | .param f index => (p.func f).name ++ handle ".arg" index
  | .global g => "@" ++ (p.global g).name
  | .function f => "@" ++ (p.func f).name
  | .const c => toString c.toInt
  | .null => "null"

/-- What an instruction does, in a few words. -/
def opSummary (p : Program) (op : Operation) : String :=
  match op with
  | .load ptr => "load " ++ p.valueName ptr
  | .store ptr val => "store " ++ p.valueName val ++ " -> " ++ p.valueName ptr
  | .call (.direct f) _ => "call @" ++ (p.func f).name
  | .call (.indirect v) _ => "call *" ++ p.valueName v
  | op => op.text

/-- One line on an instruction: its handle, function, place and operation. -/
def describe (p : Program) (i : InstId) : String :=
  let inst := p.inst i
  let place := match inst.loc with
    | some loc => " at " ++ loc.text
    | none => ""
  handle "i" i ++ " in " ++ (p.func inst.func).name ++ place ++ " (" ++ p.opSummary inst.op ++ ")"

end Program

end DataRace
