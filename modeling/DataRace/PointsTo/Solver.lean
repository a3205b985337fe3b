import DataRace.PointsTo.Basic
import DataRace.Program.Library
import DataRace.Program.Text
import DataRace.Program.Value

/-!
# DataRace.PointsTo.Solver

Inclusion-based points-to analysis.

Nodes whose set has grown wait in a queue.  Taking one out passes its objects
on along copies, turns the loads and stores through it into copies from and to
the objects, projects them to fields, and links the functions among them to
the calls and threads that go through it.  Joins are matched to spawns once
nothing grows any more, and if that adds an edge the queue is worked off again.

Every entry into the queue goes with a set that grows or a call that is newly
linked, which bounds the number of steps.
-/

namespace DataRace

namespace PointsTo

/-- The analysis under way. -/
structure Solver where
  result : PointsTo
  /-- Where the objects of a node flow on to. -/
  copies : Array IdSet
  /-- The nodes whose set has grown since they were last taken out. -/
  queue : List NodeId := []
deriving Inhabited

namespace Solver

/-- Put a node in the queue, unless it waits there already. -/
def enqueue (s : Solver) (n : NodeId) : Solver :=
  if s.queue.contains n then s else { s with queue := s.queue ++ [n] }

/-- Add objects to the set of a node; it enters the queue if the set grows. -/
def grow (s : Solver) (n : NodeId) (os : List ObjId) : Solver :=
  let old := s.result.nodePts n
  let new := os.foldl (·.insert ·) old
  if new.size = old.size then
    s
  else
    enqueue { s with result.pts := s.result.pts.setIfInBounds n new } n

/-- Let the objects of one node flow to another from now on. -/
def addCopy (s : Solver) (src dst : NodeId) : Solver :=
  let old := s.copies.getD src ∅
  if old.contains dst then
    s
  else
    grow { s with copies := s.copies.setIfInBounds src (old.insert dst) } dst
      (s.result.nodePts src).toList

/-- Record an edge of the assignment graph. -/
def addEdge (s : Solver) (src dst : NodeId) (kind : EdgeKind) : Solver :=
  { s with result.graph := s.result.graph.insert ⟨src, dst, kind⟩ }

/-- Record the address of an object. -/
def addAddress (s : Solver) (o : ObjId) (v : ValueId) : Solver :=
  (s.addEdge (s.result.graph.objNode o) v .addr).grow v [o]

/-- Record an edge along which objects flow unchanged. -/
def addFlow (s : Solver) (src dst : ValueId) (kind : EdgeKind) : Solver :=
  (s.addEdge src dst kind).addCopy src dst

/-- The value a function returns. -/
def returned? (p : Program) (f : FuncId) : Option ValueId :=
  match (p.returnOf f).map p.op with
  | some (.ret v) => v
  | _ => none

/-- Record a routine that a site may start. -/
def linkSpawn (p : Program) (s : Solver) (site : InstId) (f : FuncId) : Solver :=
  let old := s.result.spawneeMap.getD site ∅
  if old.contains f then
    s
  else
    let s := { s with result.spawneeMap := s.result.spawneeMap.insert site (old.insert f) }
    match (p.func f).isDeclaration, p.routineArg site, (p.func f).params with
    | false, some arg, param :: _ => s.addFlow arg param (.fork site)
    | _, _, _ => s

/-- The routine of a thread start that only the analysis can tell. -/
def pointedRoutine? (p : Program) (site : InstId) : Option ValueId :=
  if p.isThreadStart site then (p.routine site).filter fun v => (p.asFunction v).isNone else none

/-- Record a library function that a call may reach.  Unrecognised code returns unknown memory. -/
def linkLibrary (p : Program) (s : Solver) (site : InstId) (f : FuncId) : Solver :=
  match p.libraryFunc? f with
  | some .spawn | some .parallelFor =>
    let s := { s with
      result.spawneeMap := s.result.spawneeMap.insert site (s.result.spawneeMap.getD site ∅) }
    match p.routine site with
    | none => s
    | some v =>
      match p.asFunction v with
      | some g => linkSpawn p s site g
      | none => s.enqueue v
  | some _ => s
  | none =>
    match p.result site with
    | some r => s.grow r [s.result.unknown]
    | none => s

/-- Record a function that a call may reach: arguments flow in and the returned value out. -/
def linkCall (p : Program) (s : Solver) (site : InstId) (f : FuncId) : Solver :=
  let old := s.result.calleeMap.getD site ∅
  if old.contains f then
    s
  else
    let s := { s with result.calleeMap := s.result.calleeMap.insert site (old.insert f) }
    if (p.func f).isDeclaration then
      linkLibrary p s site f
    else
      let s := ((p.callArgs site).zip (p.func f).params).foldl
        (fun s (a, q) => s.addFlow a q (.call site)) s
      match returned? p f, p.result site with
      | some v, some r => s.addFlow v r (.ret site)
      | _, _ => s

/-- The constraint an instruction states by itself. -/
def seedInst (p : Program) (s : Solver) (i : InstId) : Solver :=
  match p.op i, p.result i with
  | .alloc .., some r =>
    match s.result.allocObj i with
    | some o => s.addAddress o r
    | none => s
  | .load ptr, some r => s.addEdge ptr r .load
  | .store ptr val, _ => s.addEdge val ptr .store
  | .project base offset _, some r =>
    s.addEdge base r (match offset with
      | some k => .field k
      | none => .index)
  | .cast src, some r => s.addFlow src r .copy
  | .phi incoming, some r => incoming.foldl (fun s (v, _) => s.addFlow v r .copy) s
  | .call (.direct f) _, _ => linkCall p s i f
  | .call (.indirect v) _, _ => s.enqueue v
  | _, _ => s

/-- The objects of the program: globals, functions, allocations, and unknown memory. -/
def objects (p : Program) : PointsTo :=
  let t : ObjectTable := {}
  let (globals, t) := p.globals.toList.zipIdx.foldl (fun (os, t) (g, k) =>
    let (o, t) := t.add .global (.global k) g.fields none g.loc g.name
    (os.push o, t)) ((#[] : Array ObjId), t)
  let (funcs, t) := p.funcs.toList.zipIdx.foldl (fun (os, t) (f, k) =>
    let (o, t) := t.add .function (.function k) 0 none none f.name
    (os.push o, t)) ((#[] : Array ObjId), t)
  let (allocs, t) := p.instIds.foldl (fun (os, t) i =>
    match p.op i with
    | .alloc heap fields =>
      let (o, t) := t.add (if heap then .heap else .stack) (.alloc i) fields (some (p.funcOf i))
        (p.inst i).loc ((if heap then "heap@" else "stack@") ++ handle "i" i)
      (os.insert i o, t)
    | _ => (os, t)) ((∅ : IdMap ObjId), t)
  let (unknown, t) := t.unknown
  { objs := t
    graph := .ofCounts p.values.size t.size
    pts := Array.replicate (p.values.size + t.size) ∅
    allocObjs := allocs
    globalObjs := globals
    funcObjs := funcs
    unknown }

/-- The state before the first step: all addresses and all direct constraints. -/
def seed (p : Program) : Solver :=
  let t := objects p
  let s : Solver := { result := t, copies := Array.replicate t.pts.size ∅ }
  let s := (List.range p.globals.size).foldl (fun s g =>
    s.addAddress (t.globalObj g) (p.global g).addr) s
  let s := p.funcIds.foldl (fun s f => s.addAddress (t.funcObj f) (p.func f).addr) s
  p.instIds.foldl (seedInst p) s

/-- The calls through each value. -/
def callsThrough (p : Program) : IdMap (List InstId) :=
  p.instIds.foldl (fun m i =>
    match p.op i with
    | .call (.indirect v) _ => m.insert v (m.getD v [] ++ [i])
    | _ => m) ∅

/-- The thread starts whose routine is in each value. -/
def startsThrough (p : Program) : IdMap (List InstId) :=
  p.instIds.foldl (fun m i =>
    match pointedRoutine? p i with
    | some v => m.insert v (m.getD v [] ++ [i])
    | none => m) ∅

/-- What the steps read but do not change. -/
structure Env where
  program : Program
  /-- A variable index touches every field. -/
  variableIndex : Bool
  calls : IdMap (List InstId)
  starts : IdMap (List InstId)

/-- The objects that a projection of an object reaches; a variable index marks it as an array. -/
def projectVia (env : Env) (s : Solver) (o : ObjId) :
    EdgeKind → Except Error (List ObjId × Solver)
  | .field k => do return ([← s.result.objs.project o k], s)
  | .index =>
    if env.variableIndex then
      let s := if (s.result.obj o).isUnknown then s
        else { s with result.objs := s.result.objs.markArray o }
      .ok (s.result.objs.allFields o, s)
    else
      .ok ([s.result.objs.baseOf o], s)
  | _ => .ok ([], s)

/-- Follow the projections out of a node for one object. -/
def projectAll (env : Env) (o : ObjId) : List Edge → Solver → Except Error Solver
  | [], s => .ok s
  | e :: es, s => do
    let (os, s) ← projectVia env s o e.kind
    projectAll env o es (os.foldl (fun s t => s.grow e.dst [t]) s)

/-- Everything that follows from one object of a node. -/
def stepObject (env : Env) (n : NodeId) (s : Solver) (o : ObjId) : Except Error Solver := do
  let g := s.result.graph
  let on := g.objNode o
  let s := (g.outEdges n).foldl (fun s e => if e.kind = .load then s.addCopy on e.dst else s) s
  let s := (g.inEdges n).foldl (fun s e => if e.kind = .store then s.addCopy e.src on else s) s
  let s ← projectAll env o (g.outEdges n) s
  match (s.result.obj o).origin with
  | .function f =>
    let s := (env.calls.getD n []).foldl (fun s i => linkCall env.program s i f) s
    return (env.starts.getD n []).foldl (fun s i => linkSpawn env.program s i f) s
  | _ => return s

/-- Everything that follows from the set of a node. -/
def step (env : Env) (s : Solver) (n : NodeId) : Except Error Solver := do
  let set := (s.result.nodePts n).toList
  let s ← set.foldlM (stepObject env n) s
  return (s.copies.getD n ∅).foldl (fun s m => s.grow m set) s

/-- Work the queue off, within a number of steps. -/
def solve (env : Env) : Nat → Solver → Except Error Solver
  | 0, s => .ok s
  | bound + 1, s =>
    match s.queue with
    | [] => .ok s
    | n :: queue => do solve env bound (← step env { s with queue } n)

/-- The pointer that the thread id of a join is loaded from. -/
def joinPointer? (p : Program) (j : InstId) : Option ValueId := do
  match p.defOp (p.stripCasts (← p.threadId j)) with
  | some (.load ptr) => some ptr
  | _ => none

/-- Match one join with one spawn. -/
def linkJoin (p : Program) (j : InstId) (s : Solver) (spawn : InstId) : Solver :=
  match joinPointer? p j, p.result j, p.threadId spawn with
  | some ptr, some r, some tid =>
    if s.result.mayAlias ptr tid then
      let joined := (s.result.joinMap.getD j ∅).insert spawn
      let s := { s with result.joinMap := s.result.joinMap.insert j joined }
      (s.result.spawnees spawn).foldl (fun s f =>
        match returned? p f with
        | some v => s.addFlow v r (.join spawn)
        | none => s) s
    else
      s
  | _, _, _ => s

/-- Match all joins with all spawns. -/
def linkJoins (p : Program) (s : Solver) : Solver :=
  let spawns := s.result.spawnSites.filter p.isSpawn
  (s.result.calleeMap.keys.filter p.isJoin).foldl (fun s j => spawns.foldl (linkJoin p j) s) s

/-- Alternate between solving and matching joins until no edge is added. -/
def rounds (env : Env) (bound : Nat) : Nat → Solver → Except Error Solver
  | 0, s => .ok s
  | k + 1, s => do
    let s ← solve env bound s
    let t := linkJoins env.program s
    if t.result.graph.edges.size = s.result.graph.edges.size then .ok t else rounds env bound k t

/-- A bound on how often a node enters the queue: once for each object that can enter a set, and
once for each call and each function it can be linked to. -/
def stepBound (p : Program) (s : Solver) : Nat :=
  s.result.pts.size * s.result.objs.size + p.insts.size * (p.funcs.size + 1) + 1

/-- A bound on the number of rounds: one for each edge from a routine to a join. -/
def roundBound (p : Program) : Nat := p.insts.size * p.insts.size * p.funcs.size + 1

end Solver

/-- The points-to sets of a program. -/
def analyze (p : Program) (variableIndex : Bool) : Except Error PointsTo := do
  let s := Solver.seed p
  let env : Solver.Env :=
    { program := p, variableIndex, calls := Solver.callsThrough p,
      starts := Solver.startsThrough p }
  return (← Solver.rounds env (Solver.stepBound p s) (Solver.roundBound p) s).result

end PointsTo

end DataRace
