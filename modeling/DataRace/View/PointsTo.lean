import DataRace.Access
import DataRace.View.Datum

/-!
# DataRace.View.PointsTo

Points-to sets, the call graph, library calls and collected operations as
plain data.
-/

namespace DataRace

/-- A memory object of the points-to analysis. -/
def PointsTo.viewObj (t : PointsTo) (o : ObjId) : Datum :=
  let m := t.obj o
  .record [("name", view m.name), ("flags", view m.flags), ("base", view m.base),
    ("field", view m.field), ("func", view m.func), ("loc", view m.loc),
    ("array", view (t.objs.isArray o)), ("first", view m.isFirstField),
    ("contents", view (t.contents o))]

instance : View AssignGraph := ⟨fun g =>
  .record [("nodes", view g.nodeCount), ("edges", view g.edges)]⟩

instance : View CallEdge := ⟨fun e => view (e.site, e.caller, e.callee, e.fork)⟩

/-- The name of a kind of library call. -/
def LibraryCall.text : LibraryCall → String
  | spawn => "Spawn"
  | join => "Join"
  | lock => "Lock"
  | unlock => "Unlock"
  | barrierWait => "BarrierWait"
  | parallelFor => "ParFor"
  | memCopy => "MemCopy"
  | memSet => "MemSet"
  | free => "Free"

/-- A call as a library call. -/
def Program.viewLibraryCall (p : Program) (i : InstId) : Datum :=
  .record [("site", view i), ("kind", view ((p.libraryCall? i).map (·.text))),
    ("tid", view (p.threadId i)), ("routine", view (p.routine i)), ("arg", view (p.routineArg i)),
    ("lock", view (p.lockPtr i)), ("barrier", view (p.barrierPtr i)), ("dest", view (p.destPtr i)),
    ("src", view (p.srcPtr i)),
    ("is", bits [p.isSpawn i, p.isJoin i, p.isLock i, p.isUnlock i, p.isBarrierWait i,
      p.isParallelFor i, p.isThreadStart i, p.isMemoryCall i])]

/-- All calls as library calls, and what the declared functions do. -/
def Program.viewLibrary (p : Program) : Datum :=
  .record [("calls", view ((p.instIds.filter p.isCall).map p.viewLibraryCall)),
    ("funcs", view (p.funcIds.map fun f => (p.libraryFunc? f).map (·.text)))]

instance : View Operations := ⟨fun ops =>
  .record [("accesses", view (ops.accesses.map fun a => (a.inst, a.ptr, a.isWrite))),
    ("of", view (ops.insts.map fun i => (i, ops.of i))), ("spawns", view ops.spawns),
    ("joins", view ops.joins), ("locks", view ops.locks), ("unlocks", view ops.unlocks),
    ("barriers", view ops.barriers), ("par_fors", view ops.parallelFors),
    ("empty", view ops.accesses.isEmpty)]⟩

namespace Subject

/-- The values that point anywhere. -/
def pointerValues (s : Subject) : List ValueId :=
  s.program.valueIds.filter fun v => !(s.pointers.of v).isEmpty

/-- The points-to sets. -/
def viewPointers (s : Subject) : Datum :=
  let t := s.pointers
  .record [("objs", view ((List.range t.objs.size).map t.viewObj)),
    ("pts", view (s.pointerValues.map fun v => (v, t.of v))),
    ("calls", view ((s.program.instIds.filter s.program.isCall).map fun i =>
      Datum.record [("site", view i), ("callees", view (t.callees i)),
        ("spawnees", view (t.spawnees i)), ("joins", view (t.joinedSpawns i))])),
    ("allocs", view t.allocObjs), ("globals", view t.globalObjs), ("funcs", view t.funcObjs),
    ("spawns", view t.spawnSites), ("dummy", view t.unknown)]

/-- Which pointers alias: a dot for never, `a` for maybe, `m` for always. -/
def viewAliases (s : Subject) : Datum :=
  let t := s.pointers
  let vs := s.pointerValues
  let mark (v w : ValueId) := if t.mustAlias v w then 'm' else if t.mayAlias v w then 'a' else '.'
  .record [("values", view vs), ("singleton", bits (vs.map s.isSingleton)),
    ("rows", view (vs.map fun v => String.ofList (vs.map (mark v))))]

/-- The call graph with its components. -/
def viewCalls (s : Subject) : Datum :=
  let g := s.calls
  let cs := s.components
  let fs := s.program.funcIds
  .record [("funcs", view (fs.map fun f =>
      Datum.record [("out", view (g.edgesFrom f)), ("in", view (g.edgesTo f)),
        ("call_sites", view (g.callSitesTo f)), ("live", view (g.isLive f)),
        ("analyzable", view (s.isAnalyzable f)), ("scc", view (cs.of? f)),
        ("recursive", view (cs.isRecursive f))])),
    ("sites", view ((s.program.instIds.filter g.hasEdges).map fun i =>
      (i, g.calleesAt i, g.spawneesAt i))),
    ("sccs", view (cs.list.map fun c =>
      Datum.record [("rep", view c.rep), ("members", view c.members),
        ("recursive", view c.recursive), ("size", view c.members.length),
        ("live", view (s.isAnalyzable c.rep)), ("incoming", view (s.incomingCalls c))])),
    ("scc_contains", view (cs.list.map fun c => bits (fs.map c.members.contains))),
    ("no_sccs", view cs.list.isEmpty), ("live", view g.live),
    ("address_taken", view g.addressTaken), ("recursive", view s.recursive),
    ("bottom_up", view s.bottomUp), ("top_down", view s.topDown),
    ("all_top_down", view cs.topDown)]

end Subject

end DataRace
