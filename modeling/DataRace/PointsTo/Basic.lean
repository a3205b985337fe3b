import DataRace.Collection
import DataRace.PointsTo.Graph

/-!
# DataRace.PointsTo.Basic

The result of the points-to analysis, and the questions it answers.

A pointer to unknown memory may alias any pointer that points anywhere.
-/

namespace DataRace

/-- Points-to sets with the calls and threads they resolve. -/
structure PointsTo where
  objs : ObjectTable
  graph : AssignGraph
  /-- The objects each node of the graph points to. -/
  pts : Array IdSet
  allocObjs : IdMap ObjId
  globalObjs : Array ObjId
  funcObjs : Array ObjId
  /-- The functions a call may reach, library functions among them. -/
  calleeMap : IdMap IdSet := ∅
  /-- The routines a spawn or parallel loop may start. -/
  spawneeMap : IdMap IdSet := ∅
  /-- The spawns whose thread a join may wait for. -/
  joinMap : IdMap IdSet := ∅
  /-- The object for unknown memory. -/
  unknown : ObjId
deriving Inhabited

namespace PointsTo

def nodePts (t : PointsTo) (n : NodeId) : IdSet := t.pts.getD n ∅

/-- The objects a value may point to. -/
def of (t : PointsTo) (v : ValueId) : IdSet := t.nodePts (t.graph.valueNode v)

/-- The objects whose addresses an object may hold. -/
def contents (t : PointsTo) (o : ObjId) : IdSet := t.nodePts (t.graph.objNode o)

def obj (t : PointsTo) (o : ObjId) : MemObject := t.objs.get o

/-- Whether two sets share an element. -/
def meet (a b : IdSet) : Bool := a.any b.contains

/-- Whether two pointers may point to the same object. -/
def mayAlias (t : PointsTo) (a b : ValueId) : Bool :=
  let x := t.of a
  let y := t.of b
  if x.contains t.unknown || y.contains t.unknown then !x.isEmpty && !y.isEmpty else meet x y

/-- The only object a value may point to. -/
def only? (t : PointsTo) (v : ValueId) : Option ObjId := single (t.of v).toList
where
  single : List ObjId → Option ObjId
    | [o] => some o
    | _ => none

/-- Whether two pointers always point to the same place. -/
def mustAlias (t : PointsTo) (a b : ValueId) : Bool :=
  match t.only? a with
  | none => false
  | some o =>
    t.only? b == some o &&
      !(t.obj o).isUnknown && !(t.obj o).isHeap && !(t.obj o).isFunction && !t.objs.isArray o

/-- Whether a value points to one object that exists once at run time.  A stack object of a
recursive function exists more than once. -/
def isSingleton (t : PointsTo) (recursive : IdSet) (v : ValueId) : Bool :=
  match t.only? v with
  | none => false
  | some o =>
    let obj := t.obj o
    !obj.isUnknown && !obj.isHeap && !t.objs.isArray o &&
      !(obj.region = .stack && obj.func.any recursive.contains)

/-- The object an allocation makes. -/
def allocObj (t : PointsTo) (i : InstId) : Option ObjId := t.allocObjs[i]?

def globalObj (t : PointsTo) (g : GlobalId) : ObjId := t.globalObjs.getD g 0

def funcObj (t : PointsTo) (f : FuncId) : ObjId := t.funcObjs.getD f 0

/-- The functions a call may reach. -/
def callees (t : PointsTo) (site : InstId) : List FuncId := (t.calleeMap.getD site ∅).toList

/-- The routines a spawn or parallel loop may start. -/
def spawnees (t : PointsTo) (site : InstId) : List FuncId := (t.spawneeMap.getD site ∅).toList

/-- All spawns and parallel loops. -/
def spawnSites (t : PointsTo) : List InstId := t.spawneeMap.keys

/-- The spawns whose thread a join may wait for. -/
def joinedSpawns (t : PointsTo) (join : InstId) : List InstId := (t.joinMap.getD join ∅).toList

end PointsTo

end DataRace
