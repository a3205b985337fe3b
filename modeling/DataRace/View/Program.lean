import DataRace.Program.Text
import DataRace.Program.Value
import DataRace.Subject
import DataRace.View.Datum

/-!
# DataRace.View.Program

A program and the control flow of its functions as plain data.
-/

namespace DataRace

/-- A function. -/
def Program.viewFunc (p : Program) (id : FuncId) : Datum :=
  let f := p.func id
  .record [("id", view id), ("name", view f.name), ("params", view f.params),
    ("blocks", view f.blocks), ("addr", view f.addr), ("decl", view f.isDeclaration),
    ("entry", view f.entry), ("ret", view (p.returnOf id))]

/-- A block. -/
def Program.viewBlock (p : Program) (id : BlockId) : Datum :=
  let b := p.block id
  .record [("id", view id), ("func", view b.func), ("insts", view b.insts),
    ("succs", view b.succs), ("preds", view b.preds)]

/-- An instruction. -/
def Program.viewInst (p : Program) (id : InstId) : Datum :=
  let i := p.inst id
  .record [("func", view i.func), ("block", view i.block), ("pos", view i.pos),
    ("result", view i.result), ("operands", view i.op.operands), ("term", view i.op.isTerminator),
    ("interesting", view i.op.isInteresting), ("next", view (p.nextInst id)),
    ("callee", view (p.directCallee id)), ("desc", view (p.describe id))]

/-- A value. -/
def Program.viewValue (p : Program) (v : ValueId) : Datum :=
  .record [("name", view (p.valueName v)), ("users", view (p.users v)),
    ("const", view (p.constValue v)), ("global", view (p.asGlobal v)),
    ("function", view (p.asFunction v)), ("strip", view (p.stripCasts v)),
    ("base", view (p.basePointer v))]

/-- A global variable. -/
def Program.viewGlobal (p : Program) (id : GlobalId) : Datum :=
  let g := p.global id
  .record [("id", view id), ("name", view g.name), ("fields", view g.fields),
    ("addr", view g.addr), ("loc", view g.loc)]

instance : View Program := ⟨fun p =>
  .record [("funcs", view (p.funcIds.map p.viewFunc)),
    ("blocks", view (p.funcIds.flatMap fun f => (p.func f).blocks.map p.viewBlock)),
    ("insts", view (p.instIds.map p.viewInst)),
    ("values", view (p.valueIds.map p.viewValue)),
    ("globals", view ((List.range p.globals.size).map p.viewGlobal)),
    ("main", view p.main?)]⟩

/-- A dominance relation over the blocks of its function. -/
instance : View Dominance := ⟨fun t =>
  .record [("post", view t.post), ("rows", view (t.blocks.map fun b =>
    (b, t.parent? b, t.isReachable b, t.children b, t.descendants b,
      bits (t.blocks.map (t.dominates b)), bits (t.blocks.map (t.strictlyDominates b)))))]⟩

/-- A loop. -/
def Loop.viewIn (l : Loop) (p : Program) : Datum :=
  .record [("header", view l.header), ("blocks", view l.blocks), ("latches", view l.latches),
    ("exits", view l.exits), ("preheader", view l.preheader), ("parent", view l.parent),
    ("depth", view l.depth), ("unique_exit", view l.uniqueExit),
    ("unique_latch", view l.uniqueLatch), ("exit_edges", view (l.exitEdges p))]

namespace Subject

/-- The control flow of a function. -/
def viewFlow (s : Subject) (f : FuncId) : Datum :=
  let ff := s.flow f
  let bs := ff.dom.blocks
  let ls := ff.loops
  .record [("dom", view ff.dom), ("pdom", view ff.postDom), ("ret", view ff.ret),
    ("frontier", view (bs.map fun b => (b, ff.frontier[b]?, bits (bs.map (ff.inFrontier b))))),
    ("loops", view (ls.loops.map (·.viewIn s.program))),
    ("loop_of", view (bs.map fun b => (b, ls.loopOf b, ls.isHeader b, ls.inLoop b)))]

/-- What the control flow of a function says about any block. -/
def viewBlockIn (s : Subject) (f : FuncId) (x : BlockId) : Datum :=
  let ff := s.flow f
  let entry := (s.program.func f).entry.getD 0
  let ask (t : Dominance) := (t.parent? x, t.isReachable x, t.dominates entry x,
    t.dominates x entry, t.dominates x x, t.children x, t.descendants x)
  view [view (ask ff.dom), view (ask ff.postDom), view (ff.loops.loopOf x),
    view (ff.inFrontier x x)]

/-- Dominance between the instructions of a function. -/
def viewInstDominance (s : Subject) (f : FuncId) : Datum :=
  let is := s.program.funcInsts f
  .record [("insts", view is), ("dom", bitMatrix is s.dominates),
    ("pdom", bitMatrix is s.postDominates),
    ("loops", view (is.map ((s.flow f).loops.loopOfInst s.program)))]

/-- The recurrences and exit conditions that the loops of a function give. -/
def viewInduction (s : Subject) (f : FuncId) : Except Error Datum := do
  let p := s.program
  let ls := (s.flow f).loops
  let recs ← p.valueIds.filterMapM fun v => do
    return (← Induction.recurrence p ls v).map (v, ·)
  let edges := ls.loops.toList.zipIdx.flatMap fun (l, i) => (l.exitEdges p).map (i, ·)
  let exits ← edges.mapM fun (i, exiting, exit) => do
    let bound ← Induction.exitCondition p ls i exiting
    let trip ← Induction.tripCount p ls i exiting
    return (trip, Datum.record [("loop", view i), ("exiting", view exiting), ("exit", view exit),
      ("bound", view bound), ("trip", view (trip.map fun t => (t.recurrence, t.cond)))])
  return .record [("recs", view recs), ("exits", view (exits.map (·.2))),
    ("same_trip", bitMatrix (exits.filterMap (·.1)) (Induction.sameTripCount p)),
    ("same_rec", bitMatrix recs fun a b => Induction.sameStartAndStep p a.2 b.2)]

end Subject

end DataRace
