import DataRace.Alias.Cache
import DataRace.Alias.Query
import DataRace.Parallel.Basic

/-!
# DataRace.Alias.Solver

Demand-driven, context-sensitive alias queries within a budget.

A points-to query walks the assignment graph backwards from a pointer, a
flows-to query forwards from an object, and an alias query chains the two.
Call and fork edges are matched with return and join edges by the context.
Loads and stores lead from each kind of query to the others; a query that is
met while it is in process counts as answered by nothing.

Every node a walk takes up costs one step of the budget.  When the budget is
spent all queries in process end without an answer, and stay so.  A query that
is broken off by a number out of range stays in process.

* `AliasSolver.solve` answers a query from within another one;
* `AliasSolver.ask` starts a query with a fresh budget.
-/

namespace DataRace

/-- What is kept from one query to the next. -/
structure AliasSolver where
  /-- The steps each query may take. -/
  budget : Int
  log : Log
  cache : Cache Query := {}
  /-- The alias queries in process. -/
  active : Std.TreeSet Query := ∅
  /-- The steps left. -/
  left : Int := 0
  /-- The queries that spent their budget. -/
  exhausted : Nat := 0
deriving Inhabited

/-- Why a query ends early. -/
inductive Stop where
  /-- It has no answer, for the reason its status gives. -/
  | unanswered (status : Status)
  /-- It is broken off. -/
  | broken (err : Error)
deriving DecidableEq

/-- A part of a query.  It may end early, and what was learnt is kept even then. -/
abbrev Demand := ExceptT Stop (StateM AliasSolver)

/-- A query as a whole.  It may be broken off, and what was learnt is kept even then. -/
abbrev Asked := ExceptT Error (StateM AliasSolver)

/-- What queries are asked about. -/
structure AliasScope where
  subject : Subject
  par : Parallelism

namespace AliasScope

def graph (x : AliasScope) : AssignGraph := x.subject.pointers.graph

def obj (x : AliasScope) (o : ObjId) : MemObject := x.subject.pointers.obj o

def objs (x : AliasScope) : ObjectTable := x.subject.pointers.objs

/-- The node of unknown memory. -/
def unknownNode (x : AliasScope) : NodeId := x.graph.objNode x.subject.pointers.unknown

/-- Whether returning through a call site stays in the code of a point. -/
def staysInside (x : AliasScope) (q : Point) (site : InstId) : Bool :=
  let p := x.subject.program
  match x.par.loops[q.spawn]? with
  | some code => code.covers p site
  | none =>
    match q.side with
    | .trunk => (x.par.codeOf q.spawn).trunk.covers p site ||
        site != q.spawn &&
          (x.par.affectedSites x.subject (p.funcOf site) q.spawn).any (·.contains site)
    | .branch => (x.par.codeOf q.spawn).branch.covers p site
    | .not => false

/-- How contexts leave their abstract roots. -/
def roots (x : AliasScope) : Context.Roots where
  isRoot q site := site = q.spawn && (q.side = .branch || x.par.isParallelLoop q.spawn)
  staysInside := x.staysInside

/-- Whether a node is the result of a call to code nothing is known about. -/
def isUnknownSource (x : AliasScope) (n : NodeId) : Bool :=
  let p := x.subject.program
  match x.graph.node n with
  | .object _ => false
  | .value v =>
    match p.defInst v with
    | none => false
    | some i => p.isCall i && (x.subject.pointers.callees i).any fun f =>
        (p.func f).isDeclaration && (p.libraryFunc? f).isNone

/-- The context under which an object is seen: a global object exists once. -/
def objContext (x : AliasScope) (o : ObjId) (c : Context) : Context :=
  if (x.obj o).isGlobal then .global else c

end AliasScope

/-- Whether a node is reached under a context. -/
def Reached.holds (r : Reached) (n : NodeId) (c : Context) : Bool :=
  (r.entries.getD n ∅).contains c

/-- A walk through the graph: the places still to take up, and what was found. -/
structure Walk where
  work : List (NodeId × Context)
  found : Reached := ∅

namespace Walk

/-- Put places on top, the last of them first to be taken up. -/
def push (w : Walk) (places : List (NodeId × Context)) : Walk :=
  { w with work := places.reverse ++ w.work }

/-- Add a node under every one of the contexts. -/
def add (w : Walk) (n : NodeId) (cs : Std.TreeSet Context) : Walk :=
  { w with found := w.found.addAll n cs }

end Walk

namespace AliasSolver

/-- Take one step of the budget. -/
def spend : Demand Unit := do
  let s ← get
  if s.left ≤ Int64.minValue.toInt then
    throw (.broken .outOfRange)
  else
    set { s with left := s.left - 1 }
    if s.left - 1 ≤ 0 then throw (.unanswered .outOfBudget)

/-- Walk until nothing is left, at most that many steps.  A place is taken up once. -/
def walk (step : NodeId → Context → Walk → Demand Walk) : Nat → Reached → Walk → Demand Reached
  | 0, _, _ => throw (.unanswered .outOfBudget)
  | steps + 1, seen, w =>
    match w.work.dropWhile fun (n, c) => seen.holds n c with
    | [] => return w.found
    | (n, c) :: rest => do
      spend
      walk step steps (seen.add n c) (← step n c { w with work := rest })

/-- The answer of a query that was answered before, or of a computation that is then kept. -/
def cached (q : Query) (compute : Demand Reached) : Demand Reached := do
  let (known, cache) := (← get).cache.lookup q
  modify fun s => { s with cache }
  let start : Demand Reached := do
    modify fun s => { s with cache := s.cache.setStatus q .inProcess }
    try
      let r := { ← compute with status := .solved }
      modify fun s => { s with cache := s.cache.store q r }
      return r
    catch
      | .unanswered status =>
        modify fun s => { s with cache := s.cache.store q (.ofStatus status) }
        throw (.unanswered status)
      | .broken err => throw (.broken err)
  match known with
  | none => start
  | some r =>
    match r.status with
    | .fresh => start
    | .solved => return r
    | .inProcess => return .ofStatus .solved
    | status => throw (.unanswered status)

/-! ## Backwards: points-to -/

/-- Where the values that a load through `ptr` may read come from. -/
def storedThrough (x : AliasScope) (ask : Query → Demand Reached) (ptr : NodeId) (c : Context) :
    Demand (List (NodeId × Context)) := do
  let aliases ← ask ⟨.aliases, ptr, c⟩
  return aliases.entries.toList.flatMap fun (q, cs) =>
    ((x.graph.inEdges q).filter (·.kind = .store)).flatMap fun e => cs.toList.map (e.src, ·)

/-- Follow an edge backwards. -/
def stepBack (x : AliasScope) (ask : Query → Demand Reached) (c : Context) (w : Walk) (e : Edge) :
    Demand Walk := do
  match e.kind with
  | .addr =>
    match x.graph.asObj e.src with
    | none => return w
    | some o =>
      if (x.obj o).isUnknown then return w
      else return { w with found := w.found.add e.src (x.objContext o c) }
  | .copy => return w.push [(e.src, c)]
  | .call site | .fork site => return w.push ((c.pop x.roots site).toList.map (e.src, ·))
  | .ret site | .join site =>
    return if c.onStack site then w else w.push [(e.src, c.push site)]
  | .load => return w.push (← storedThrough x ask e.src c)
  | .store => return w
  | .field k =>
    let base ← ask ⟨.pointsTo, e.src, c⟩
    base.entries.toList.foldlM (fun w (n, cs) => do
      match x.graph.asObj n with
      | none => return w
      | some o =>
        match x.objs.project o k with
        | .ok field => return w.add (x.graph.objNode field) cs
        | .error err => throw (.broken err)) w
  | .index =>
    let base ← ask ⟨.pointsTo, e.src, c⟩
    return base.entries.foldl (fun w n cs =>
      match x.graph.asObj n with
      | none => w
      | some o =>
        if (x.obj o).isUnknown then w.add n cs
        else (x.objs.allFields o).foldl (fun w field => w.add (x.graph.objNode field) cs) w) w

/-- Take up a place on the way back. -/
def takeBack (x : AliasScope) (ask : Query → Demand Reached) (n : NodeId) (c : Context) (w : Walk) :
    Demand Walk :=
  let w := if x.isUnknownSource n then { w with found := w.found.add x.unknownNode .global } else w
  (x.graph.inEdges n).foldlM (stepBack x ask c) w

/-! ## Forwards: flows-to -/

/-- Where the values that a store through `ptr` writes may be read. -/
def loadedThrough (x : AliasScope) (ask : Query → Demand Reached) (ptr : NodeId) (c : Context) :
    Demand (List (NodeId × Context)) := do
  let aliases ← ask ⟨.aliases, ptr, c⟩
  return aliases.entries.toList.flatMap fun (q, cs) =>
    ((x.graph.outEdges q).filter (·.kind = .load)).flatMap fun e => cs.toList.map (e.dst, ·)

/-- Add what a query finds. -/
def addAnswer (ask : Query → Demand Reached) (w : Walk) (q : Query) : Demand Walk := do
  return { w with found := w.found.union (← ask q) }

/-- Follow an edge forwards; with an offset the object is still to be projected by it. -/
def stepForward (x : AliasScope) (ask : Query → Demand Reached) (offset : Option Nat) (c : Context)
    (w : Walk) (e : Edge) : Demand Walk := do
  match e.kind with
  | .addr | .copy => return w.push [(e.dst, c)]
  | .call site | .fork site =>
    return if c.onStack site then w else w.push [(e.dst, c.push site)]
  | .ret site | .join site => return w.push ((c.pop x.roots site).toList.map (e.dst, ·))
  | .store => return w.push (← loadedThrough x ask e.dst c)
  | .load => return w
  | .field k =>
    if offset.isNone && k > 0 then return w
    else if offset = some k then addAnswer ask w ⟨.flowsTo none, e.dst, c⟩
    else if k = 0 then return w.push [(e.dst, c)]
    else return w
  | .index => addAnswer ask w ⟨.flowsTo none, e.dst, c⟩

/-- Whether something is loaded or stored through a node. -/
def isDereferenced (x : AliasScope) (n : NodeId) : Bool :=
  (x.graph.outEdges n).any (·.kind = .load) || (x.graph.inEdges n).any (·.kind = .store)

/-- Take up a place on the way forward. -/
def takeForward (x : AliasScope) (ask : Query → Demand Reached) (offset : Option Nat) (n : NodeId)
    (c : Context) (w : Walk) : Demand Walk :=
  let w := if offset.isNone && isDereferenced x n then { w with found := w.found.add n c } else w
  (x.graph.outEdges n).foldlM (stepForward x ask offset c) w

/-! ## Aliases -/

/-- The queries for the pointers to an object.  Only bases have their address taken, so a field
starts from its base. -/
def flowQueries (x : AliasScope) (n : NodeId) (cs : Std.TreeSet Context) : List Query :=
  match x.graph.asObj n with
  | none => []
  | some o =>
    let obj := x.obj o
    let start := if obj.field.isSome then x.graph.objNode obj.base else n
    let contexts := if obj.isGlobal then [Context.global] else cs.toList
    if obj.isUnknown then [] else contexts.map (⟨.flowsTo obj.field, start, ·⟩)

/-- The pointers that point to what a pointer points to. -/
def collectAliases (x : AliasScope) (ask : Query → Demand Reached) (n : NodeId) (c : Context) :
    Demand Reached := do
  let pts ← ask ⟨.pointsTo, n, c⟩
  let flows := pts.entries.toList.flatMap fun (o, cs) => flowQueries x o cs
  let found ← flows.foldlM (fun (found : Reached) q => return found.union (← ask q)) ∅
  return { found with status := .solved }

/-- Note that an alias query is in process while it is computed. -/
def whileActive (q : Query) (compute : Demand Reached) : Demand Reached := do
  if (← get).active.contains q then
    return .ofStatus .solved
  else
    modify fun s => { s with active := s.active.insert q }
    try
      let r ← compute
      modify fun s => { s with active := s.active.erase q }
      return r
    catch stop =>
      modify fun s => { s with active := s.active.erase q }
      throw stop

/-! ## Queries -/

/-- Answer a query, at most `depth` queries deep; a walk takes at most `steps` steps. -/
def solve (x : AliasScope) (steps : Nat) : Nat → Query → Demand Reached
  | 0, _ => throw (.unanswered .outOfBudget)
  | depth + 1, q =>
    let ask := solve x steps depth
    let start : Walk := { work := [(q.node, q.ctx)] }
    match q.kind with
    | .aliases => whileActive q (collectAliases x ask q.node q.ctx)
    | .flowsTo offset => cached q (walk (takeForward x ask offset) steps ∅ start)
    | .pointsTo =>
      if q.node < x.graph.nodeCount then cached q (walk (takeBack x ask) steps ∅ start)
      else throw (.unanswered .failed)

/-- Start a query with a fresh budget.  A query inside another one follows a step, and an alias
query lies between two others, so their nesting is bounded by the budget. -/
def ask (x : AliasScope) (q : Query) : Asked Reached := do
  modify fun s => { s with left := s.budget, active := ∅ }
  let limit := (← get).budget.toNat + 2
  match ← (solve x limit (2 * limit) q).run with
  | .ok r => return r
  | .error (.unanswered status) =>
    if status = .outOfBudget then
      modify fun s => { s with
        exhausted := s.exhausted + 1
        log := s.log.debug s!"alias query from n{q.node} ran out of budget" }
    return .ofStatus status
  | .error (.broken err) => throw err

/-- The objects a node points to. -/
def pointsTo (x : AliasScope) (n : NodeId) (c : Context) : Asked Reached :=
  ask x ⟨.pointsTo, n, c⟩

/-- The pointers that point to what a node points to. -/
def aliases (x : AliasScope) (n : NodeId) (c : Context) : Asked Reached :=
  ask x ⟨.aliases, n, c⟩

/-- The solver without what it learnt. -/
def reset (s : AliasSolver) : AliasSolver := { budget := s.budget, log := s.log }

end AliasSolver

end DataRace
