import DataRace.Flow.Search
import DataRace.PointsTo.Basic
import DataRace.Program.Library

/-!
# DataRace.Call.Graph

Which defined functions a call or thread start may enter, and which functions
can run at all.

A function is live when it is reachable from `main`, where a call through a
pointer may enter every function whose address is taken.  A program without
`main` has all its defined functions live.
-/

namespace DataRace

/-- A call, or the start of a thread, of a defined function. -/
structure CallEdge where
  site : InstId
  caller : FuncId
  callee : FuncId
  /-- The edge starts a thread. -/
  fork : Bool
deriving DecidableEq, Inhabited

/-- The order of edges: by site, caller, callee, calls before forks. -/
def CallEdge.le (a b : CallEdge) : Bool :=
  (compare (key a) (key b)).isLE
where
  key (e : CallEdge) : List Nat := [e.site, e.caller, e.callee, e.fork.toNat]

/-- The calls between defined functions. -/
structure CallGraph where
  /-- All edges by site; at a site, calls before forks. -/
  edges : List CallEdge
  /-- The functions whose address is used as a value. -/
  addressTaken : IdSet
  live : IdSet
deriving Inhabited

namespace CallGraph

/-- The edges out of a call. -/
def siteEdges (p : Program) (t : PointsTo) (i : InstId) : List CallEdge :=
  let edge (fork : Bool) (f : FuncId) : CallEdge := ⟨i, p.funcOf i, f, fork⟩
  let defined (fs : List FuncId) := fs.filter fun f => !(p.func f).isDeclaration
  if p.isCall i then
    (defined (t.callees i)).map (edge false) ++
      if p.isThreadStart i then (defined (t.spawnees i)).map (edge true) else []
  else
    []

/-- The defined functions whose address some instruction reads. -/
def takenAddresses (p : Program) : IdSet :=
  Std.TreeSet.ofList (p.funcIds.filter fun f =>
    !(p.func f).isDeclaration && !(p.users (p.func f).addr).isEmpty)

/-- Whether a call may enter any function whose address is taken. -/
def isOpenCall (p : Program) (i : InstId) : Bool :=
  match p.op i with
  | .call (.indirect _) _ => true
  | .call (.direct _) _ => p.isThreadStart i && (p.routine i).any fun v => (p.asFunction v).isNone
  | _ => false

/-- The functions that may be entered from a function. -/
def mayEnter (p : Program) (edges : List CallEdge) (taken : IdSet) (f : FuncId) : List FuncId :=
  ((p.funcInsts f).filter p.isCall).flatMap fun i =>
    ((edges.filter (·.site = i)).map (·.callee)) ++ if isOpenCall p i then taken.toList else []

/-- The defined functions that can run. -/
def liveFunctions (p : Program) (edges : List CallEdge) (taken : IdSet) : IdSet :=
  let isDefined (f : FuncId) := !(p.func f).isDeclaration
  match p.main? with
  | none => Std.TreeSet.ofList (p.funcIds.filter isDefined)
  | some main => (reachable p.funcs.size (mayEnter p edges taken) [main]).filter isDefined

/-- The call graph of a program. -/
def ofProgram (p : Program) (t : PointsTo) : CallGraph :=
  let edges := p.instIds.flatMap (siteEdges p t)
  let addressTaken := takenAddresses p
  { edges, addressTaken, live := liveFunctions p edges addressTaken }

def isLive (g : CallGraph) (f : FuncId) : Bool := g.live.contains f

/-- The edges out of a function. -/
def edgesFrom (g : CallGraph) (f : FuncId) : List CallEdge := g.edges.filter (·.caller = f)

/-- The edges into a function. -/
def edgesTo (g : CallGraph) (f : FuncId) : List CallEdge := g.edges.filter (·.callee = f)

/-- The edges out of a call. -/
def edgesAt (g : CallGraph) (site : InstId) : List CallEdge := g.edges.filter (·.site = site)

/-- The functions called, not forked, at a site. -/
def calleesAt (g : CallGraph) (site : InstId) : List FuncId :=
  ((g.edgesAt site).filter (!·.fork)).map (·.callee)

/-- The routines forked at a site. -/
def spawneesAt (g : CallGraph) (site : InstId) : List FuncId :=
  ((g.edgesAt site).filter (·.fork)).map (·.callee)

/-- Whether a site enters some defined function. -/
def hasEdges (g : CallGraph) (site : InstId) : Bool := g.edges.any (·.site = site)

/-- The sites that call, not fork, a function. -/
def callSitesTo (g : CallGraph) (f : FuncId) : List InstId :=
  ((g.edgesTo f).filter (!·.fork)).map (·.site)

end CallGraph

end DataRace
