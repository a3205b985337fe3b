import DataRace.Flow.Loop

/-!
# DataRace.Flow.Facts

What is known about the control flow of one function.
-/

namespace DataRace

/-- The control-flow facts of a function. -/
structure FlowFacts where
  dom : Dominance
  postDom : Dominance
  frontier : IdMap IdSet
  loops : Loops
  /-- The return instruction, if the function returns. -/
  ret : Option InstId
deriving Inhabited

/-- The control-flow facts of a function of a program. -/
def FlowFacts.ofFunction (p : Program) (f : FuncId) : FlowFacts :=
  let dom := Dominance.dominators p f
  { dom
    postDom := Dominance.postDominators p f
    frontier := dom.frontier p
    loops := Loops.ofFunction p dom
    ret := p.returnOf f }

/-- Whether `x` is in the dominance frontier of `b`. -/
def FlowFacts.inFrontier (ff : FlowFacts) (b x : BlockId) : Bool :=
  (ff.frontier.getD b ∅).contains x

end DataRace
