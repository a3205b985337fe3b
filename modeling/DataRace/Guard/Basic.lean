import DataRace.Subject

/-!
# DataRace.Guard.Basic

Branch outcomes on which it depends whether a block is reached.

A branch guards a block when exactly one of its successors dominates the block
and the other does not merge back there: the block after a conditional without
an alternative is reached either way.

What an outcome says depends on who asks, so guards are read by a function
from a condition and its outcome.  A table remembers the guards of each block;
it can add those that all calls of a function share.
-/

namespace DataRace

/-- What holds wherever a block runs, and where it was read from. -/
structure Guard (φ ε : Type) where
  fact : φ
  evidence : ε
deriving Inhabited

/-- Reads a guard off a condition and its outcome, if it can be expressed. -/
abbrev Guard.Reader (φ ε : Type) := ValueId → Bool → Option (Guard φ ε)

namespace Subject

/-- The outcome of a branch that guards a block, if it does. -/
def outcomeBefore? (s : Subject) (dst b : BlockId) : Option (ValueId × Bool) :=
  let p := s.program
  let ff := s.flow (p.block dst).func
  match (p.block b).terminator.map p.op with
  | some (.branch cond whenTrue whenFalse) =>
    let isTrue := ff.dom.dominates whenTrue dst
    let taken := if isTrue then whenTrue else whenFalse
    let other := if isTrue then whenFalse else whenTrue
    if isTrue == ff.dom.dominates whenFalse dst || ff.inFrontier other taken then none
    else some (cond, isTrue)
  | _ => none

/-- The blocks that lead from the entry to a block other than the entry, in the order of a
depth-first search from the entry. -/
def blocksTo (s : Subject) (dst : BlockId) : List BlockId :=
  let p := s.program
  let f := (p.block dst).func
  let before := reachable p.blocks.size (fun b => (p.block b).preds) [dst]
  let next (b : BlockId) := ((p.block b).succs.filter before.contains).reverse
  match (p.func f).entry with
  | none => []
  | some root =>
    if (s.flow f).dom.strictlyDominates root dst then enteringOrder p.blocks.size next root else []

/-- The conditions that guard a block, with their outcomes. -/
def outcomesTo (s : Subject) (dst : BlockId) : List (ValueId × Bool) :=
  (s.blocksTo dst).filterMap (s.outcomeBefore? dst)

/-- The guards of a block in its own function. -/
def guardsAt {φ ε : Type} (s : Subject) (read : Guard.Reader φ ε) (b : BlockId) :
    List (Guard φ ε) :=
  (s.outcomesTo b).filterMap fun (cond, outcome) => read cond outcome

end Subject

/-- Whether a list of guards states a fact. -/
def Guard.states {φ ε : Type} [DecidableEq φ] (gs : List (Guard φ ε)) (g : Guard φ ε) : Bool :=
  gs.any (·.fact = g.fact)

/-- Whether the guards of one place imply those of another. -/
def Guard.implies {φ ε : Type} [DecidableEq φ] (gs hs : List (Guard φ ε)) : Bool :=
  hs.all (Guard.states gs)

/-- The guards found so far. -/
structure GuardTable (φ ε : Type) where
  /-- Add the guards that all calls of a function share. -/
  inherits : Bool
  byBlock : IdMap (List (Guard φ ε)) := ∅
  /-- The guards that the calls of a function share; none while they are being found. -/
  byFunc : IdMap (List (Guard φ ε)) := ∅

namespace GuardTable

variable {φ ε : Type} [DecidableEq φ]

/-- The guards that all calls of a function share, by a function for the guards of a block. -/
def shared (s : Subject) (ask : BlockId → StateM (GuardTable φ ε) (List (Guard φ ε))) (f : FuncId) :
    StateM (GuardTable φ ε) (List (Guard φ ε)) := do
  match (← get).byFunc[f]? with
  | some gs => return gs
  | none =>
    modify fun t => { t with byFunc := t.byFunc.insert f [] }
    let blocks : IdSet := Std.TreeSet.ofList ((s.callSites f).map s.program.blockOf)
    let common ← blocks.toList.foldlM (fun (common : Option (List (Guard φ ε))) b => do
      let gs ← ask b
      return some (match common with
        | none => gs
        | some hs => hs.filter (Guard.states gs))) none
    let gs := common.getD []
    modify fun t => { t with byFunc := t.byFunc.insert f gs }
    return gs

/-- The guards of a block, at most `depth` calls up. -/
def find (s : Subject) (read : Guard.Reader φ ε) :
    Nat → BlockId → StateM (GuardTable φ ε) (List (Guard φ ε))
  | 0, b => return s.guardsAt read b
  | depth + 1, b => do
    match (← get).byBlock[b]? with
    | some gs => return gs
    | none =>
      let outer ← if (← get).inherits then shared s (find s read depth) (s.program.block b).func
        else pure []
      let gs := outer.foldl (fun gs g => if Guard.states gs g then gs else gs ++ [g])
        (s.guardsAt read b)
      modify fun t => { t with byBlock := t.byBlock.insert b gs }
      return gs

/-- The guards of a block.  A chain of calls without repetition is no longer than the number of
functions. -/
def guards (s : Subject) (read : Guard.Reader φ ε) (b : BlockId) :
    StateM (GuardTable φ ε) (List (Guard φ ε)) :=
  find s read (s.program.funcs.size + 1) b

end GuardTable

/-! ## Comparisons -/

/-- That two values compare in a certain way; the smaller handle stands on the left. -/
structure Comparison where
  lhs : ValueId
  rhs : ValueId
  pred : Predicate
deriving DecidableEq, Inhabited

namespace Comparison

/-- Read a comparison, casts aside; the evidence is the comparing instruction. -/
def read (p : Program) : Guard.Reader Comparison InstId := fun cond outcome => do
  let cmp ← p.defInst cond
  match p.op cmp with
  | .compare pred lhs rhs =>
    let x := p.stripCasts lhs
    let y := p.stripCasts rhs
    let ordered : Comparison := if x < y then ⟨x, y, pred⟩ else ⟨y, x, pred.swap⟩
    some ⟨if outcome then ordered else { ordered with pred := ordered.pred.inverse }, cmp⟩
  | _ => none

/-- The text of a comparison. -/
def text (c : Comparison) : String := s!"v{c.lhs} {c.pred.mnemonic} v{c.rhs}"

end Comparison

end DataRace
