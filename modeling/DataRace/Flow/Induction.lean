import DataRace.Error
import DataRace.Flow.Loop
import DataRace.Program.Value

/-!
# DataRace.Flow.Induction

Symbolic induction variables and loop exit conditions.

A header phi that adds an invariant step in every iteration is a recurrence
`start + k * step`; adding, subtracting or multiplying by a constant keeps it
one.  Constants are 64-bit words, and arithmetic that leaves them is an error.

* `Induction.recurrence` finds the recurrence of a value;
* `Induction.exitCondition` normalises the comparison that keeps a loop going;
* `Induction.sameBound` compares two values by how they are computed.
-/

namespace DataRace

/-- The start or step of a recurrence. -/
inductive Term where
  | const (c : Int64)
  | value (v : ValueId)
deriving DecidableEq, Inhabited

/-- A value that starts at `start` and grows by `step` in every iteration of a loop. -/
structure Recurrence where
  header : BlockId
  start : Term
  step : Term
deriving DecidableEq, Inhabited

/-- What holds while a loop goes on: the induction variable compares to the bound. -/
structure ExitCondition where
  /-- The comparison instruction. -/
  cmp : InstId
  indvar : ValueId
  bound : ValueId
  pred : Predicate
deriving DecidableEq, Inhabited

/-- How often a loop iterates, symbolically. -/
structure TripCount where
  recurrence : Recurrence
  cond : ExitCondition
deriving DecidableEq, Inhabited

namespace Induction

/-- An integer as a 64-bit word. -/
def word (n : Int) : Except Error Int64 :=
  if Int64.minValue.toInt ≤ n ∧ n ≤ Int64.maxValue.toInt then
    .ok (Int64.ofInt n)
  else
    .error .outOfRange

/-- A value as a term, casts aside. -/
def term (p : Program) (v : ValueId) : Term :=
  let v := p.stripCasts v
  match p.constValue v with
  | some c => .const c
  | none => .value v

/-- The last input of a phi from inside the loop and the last from outside. -/
def splitInputs (l : Loop) (incoming : List (ValueId × BlockId)) :
    Option ValueId × Option ValueId :=
  incoming.foldl (fun (start, next) (v, b) =>
    if l.contains b then (start, some v) else (some v, next)) (none, none)

/-- What a phi grows by from one iteration to the next: a value to add, or a constant to take
away. -/
def stepOf (p : Program) (phi next : ValueId) : Option (ValueId ⊕ Int64) :=
  match p.defOp (p.stripCasts next) with
  | some (.arith .add l r) =>
    if p.stripCasts l = phi then some (.inl r)
    else if p.stripCasts r = phi then some (.inl l)
    else none
  | some (.arith .sub l r) =>
    if p.stripCasts l = phi then (p.constValue r).map .inr else none
  | _ => none

/-- The recurrence of a header phi with one input from inside the loop and one from outside. -/
def phiRecurrence (p : Program) (loops : Loops) (i : InstId) : Except Error (Option Recurrence) :=
  let inst := p.inst i
  match inst.op, (loops.loopOf inst.block).map loops.get, inst.result with
  | .phi incoming, some l, some phi =>
    if l.header ≠ inst.block ∨ incoming.length ≠ 2 then
      .ok none
    else
      match splitInputs l incoming with
      | (some start, some next) =>
        match stepOf p phi next with
        | some (.inl step) => .ok (some ⟨l.header, term p start, term p step⟩)
        | some (.inr c) => do return some ⟨l.header, term p start, .const (← word (-c.toInt))⟩
        | none => .ok none
      | _ => .ok none
  | _, _, _ => .ok none

/-- The recurrence after an operation with a constant. -/
def scaled (op : Arith) (r : Recurrence) (c : Int64) : Except Error (Option Recurrence) :=
  match op, r.start, r.step with
  | .add, .const s, step => do return some ⟨r.header, .const (← word (s.toInt + c.toInt)), step⟩
  | .sub, .const s, step => do return some ⟨r.header, .const (← word (s.toInt - c.toInt)), step⟩
  | .mul, .const s, .const t => do
    let start ← word (s.toInt * c.toInt)
    return some ⟨r.header, .const start, .const (← word (t.toInt * c.toInt))⟩
  | _, _, _ => .ok none

/-- The recurrence of a value, if it is an affine function of an induction variable. -/
def recurrence (p : Program) (loops : Loops) (v : ValueId) : Except Error (Option Recurrence) :=
  match p.defInst (p.stripCasts v) with
  | none => .ok none
  | some i =>
    match p.op i with
    | .phi _ => phiRecurrence p loops i
    | .arith op l r => do
      let rl ← if _h : l < v then recurrence p loops l else pure none
      match rl, p.constValue r with
      | some rec, some c => scaled op rec c
      | _, _ =>
        let rr ← if _h : r < v then recurrence p loops r else pure none
        match rr, p.constValue l with
        | some rec, some c => if op = .sub then return none else scaled op rec c
        | _, _ => return none
    | _ => .ok none
termination_by v

/-- Whether a value is a header phi of the loop with a recurrence. -/
def isInductionVariable (p : Program) (loops : Loops) (l : Loop) (v : ValueId) :
    Except Error Bool := do
  let r ← recurrence p loops v
  return r.any (·.header = l.header) && (p.defOp v).any (·.isPhi)

/-- The condition under which the loop goes on at a block it can be left from. -/
def exitCondition (p : Program) (loops : Loops) (l : LoopId) (exiting : BlockId) :
    Except Error (Option ExitCondition) := do
  let lp := loops.get l
  match (p.block exiting).terminator.map p.op with
  | some (.branch cond _ whenFalse) =>
    match p.defInst cond with
    | none => return none
    | some cmp =>
      match p.op cmp with
      | .compare pred lhs rhs =>
        let x := p.stripCasts lhs
        let y := p.stripCasts rhs
        let orient (q : Predicate) := if lp.contains whenFalse then q.inverse else q
        if ← isInductionVariable p loops lp x then
          return some ⟨cmp, x, y, orient pred⟩
        else if ← isInductionVariable p loops lp y then
          return some ⟨cmp, y, x, orient pred.swap⟩
        else
          return none
      | _ => return none
  | _ => return none

/-- How often the loop iterates when it is left through the block. -/
def tripCount (p : Program) (loops : Loops) (l : LoopId) (exiting : BlockId) :
    Except Error (Option TripCount) := do
  match ← exitCondition p loops l exiting with
  | none => return none
  | some cond => return (← recurrence p loops cond.indvar).map (⟨·, cond⟩)

/-- Whether two operations compute the same from equal operands. -/
def sameOperation : Operation → Operation → Bool
  | .load _, .load _ => true
  | .arith x _ _, .arith y _ _ => x = y
  | .project _ x _, .project _ y _ => x = y
  | _, _ => false

/-- Whether two values are computed in the same way. -/
def sameBound (p : Program) (a b : ValueId) : Bool :=
  let x := p.stripCasts a
  let y := p.stripCasts b
  x == y ||
    match (p.value x).definition, (p.value y).definition with
    | .const c, .const d => c == d
    | .inst i, .inst j =>
      let us := (p.op i).operands
      let vs := (p.op j).operands
      sameOperation (p.op i) (p.op j) && us.length == vs.length &&
        (us.zip vs).all fun (u, v) => if _h : u < a then sameBound p u v else false
    | _, _ => false
termination_by a

/-- Whether two terms are equal. -/
def sameTerm (p : Program) : Term → Term → Bool
  | .const c, .const d => c == d
  | .value a, .value b => sameBound p a b
  | _, _ => false

/-- Whether two recurrences have the same start and step. -/
def sameStartAndStep (p : Program) (a b : Recurrence) : Bool :=
  sameTerm p a.start b.start && sameTerm p a.step b.step

/-- Whether two exit conditions agree up to signedness. -/
def sameExitCondition (p : Program) (a b : ExitCondition) : Bool :=
  a.pred.sameUpToSign b.pred && sameBound p a.bound b.bound

/-- Whether two trip counts are certainly equal. -/
def sameTripCount (p : Program) (a b : TripCount) : Bool :=
  sameStartAndStep p a.recurrence b.recurrence && sameExitCondition p a.cond b.cond

end Induction

end DataRace
