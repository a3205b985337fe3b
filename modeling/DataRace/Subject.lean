import DataRace.Call.Component
import DataRace.Config
import DataRace.Flow.Facts
import DataRace.PointsTo.Solver

/-!
# DataRace.Subject

The program under analysis with everything derived from it once: points-to
sets, call graph, components and the control flow of every function.
-/

namespace DataRace

/-- A program prepared for analysis. -/
structure Subject where
  program : Program
  config : Config
  pointers : PointsTo
  calls : CallGraph
  components : Components
  /-- The functions in recursive components. -/
  recursive : IdSet
  /-- The control flow of every function. -/
  flows : Array FlowFacts
deriving Inhabited

namespace Subject

/-- Prepare a program; refused settings and numbers out of range are errors. -/
def prepare (program : Program) (config : Config) : Except Error Subject := do
  config.validate
  let pointers ← PointsTo.analyze program config.variableIndex
  let calls := CallGraph.ofProgram program pointers
  let components := Components.ofGraph program calls
  return { program, config, pointers, calls, components
           recursive := components.recursiveFunctions
           flows := (program.funcIds.map (FlowFacts.ofFunction program)).toArray }

/-- The control flow of a function. -/
def flow (s : Subject) (f : FuncId) : FlowFacts := s.flows.getD f default

/-- The control flow of the function of an instruction. -/
def flowOf (s : Subject) (i : InstId) : FlowFacts := s.flow (s.program.funcOf i)

/-- Whether a function is analysed: it is defined and can run. -/
def isAnalyzable (s : Subject) (f : FuncId) : Bool :=
  !(s.program.func f).isDeclaration && s.calls.isLive f

/-- Whether instruction `a` dominates instruction `b` of the same function. -/
def dominates (s : Subject) (a b : InstId) : Bool :=
  s.program.funcOf a = s.program.funcOf b && (s.flowOf a).dom.dominatesInst s.program a b

/-- Whether instruction `a` post-dominates instruction `b` of the same function. -/
def postDominates (s : Subject) (a b : InstId) : Bool :=
  s.program.funcOf a = s.program.funcOf b && (s.flowOf a).postDom.dominatesInst s.program a b

/-- Whether a value points to one object that exists once at run time. -/
def isSingleton (s : Subject) (v : ValueId) : Bool := s.pointers.isSingleton s.recursive v

/-- The components that are analysed; their members are live together. -/
def liveComponents (s : Subject) (order : List ComponentId) : List ComponentId :=
  order.filter fun c => s.isAnalyzable (s.components.get c).rep

/-- The live components, callees first. -/
def bottomUp (s : Subject) : List ComponentId := s.liveComponents s.components.bottomUp

/-- The live components, callers first. -/
def topDown (s : Subject) : List ComponentId := s.liveComponents s.components.topDown

/-- The calls, not forks, of members of a component from live functions. -/
def incomingCalls (s : Subject) (c : Component) : List CallEdge :=
  (c.members.flatMap fun f =>
    (s.calls.edgesTo f).filter fun e => !e.fork && s.calls.isLive e.caller).mergeSort CallEdge.le

/-- The sites in live functions that call, not fork, a function. -/
def callSites (s : Subject) (f : FuncId) : List InstId :=
  (s.calls.callSitesTo f).filter fun i => s.calls.isLive (s.program.funcOf i)

/-- Note that the members of a recursive component are summarised together. -/
def noteRecursion (s : Subject) (c : Component) (analysis : String) (log : Log) : Log :=
  if c.recursive then
    log.info (analysis ++ ": recursive SCC \x7b" ++
      ", ".intercalate (c.members.map fun f => (s.program.func f).name) ++ "\x7d summarized once")
  else
    log

end Subject

end DataRace
