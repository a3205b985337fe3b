import DataRace.Partition.Basic

/-!
# DataRace.Partition.Escape

Which partitions more than one thread can see.

A thread sees the objects it can reach from a global or from the argument it
was started with, through the contents of objects.  A pointer to the start of
an aggregate shows all its fields.
-/

namespace DataRace

/-- The objects and partitions that other threads can see. -/
structure Escape where
  /-- The objects reached from globals. -/
  globalObjs : IdSet
  /-- The objects reached from the argument of each fork. -/
  forkObjs : IdMap IdSet
  globalParts : IdSet
  forkParts : IdMap IdSet
deriving Inhabited

namespace Escape

/-- An object, with all of its aggregate when it is the start. -/
def exposed (t : PointsTo) (o : ObjId) : List ObjId :=
  if (t.obj o).isFirstField then t.objs.allFields o else [o]

/-- What a pointer shows. -/
def shown (t : PointsTo) (v : ValueId) : List ObjId := (t.of v).toList.flatMap (exposed t)

/-- The objects reached from some pointers. -/
def objectsFrom (t : PointsTo) (vs : List ValueId) : IdSet :=
  reachable t.objs.size (fun o => (t.contents o).toList.flatMap (exposed t)) (vs.flatMap (shown t))

/-- Find what each fork and the globals show. -/
def of (s : Subject) (ops : Operations) (m : Partitioning) : Escape :=
  let p := s.program
  let globalObjs := objectsFrom s.pointers (p.globals.toList.map (·.addr))
  let forkObjs : IdMap IdSet := (ops.spawns ++ ops.parallelFors).foldl (fun r i =>
    r.insert i (objectsFrom s.pointers (p.routineArg i).toList)) ∅
  let parts (objs : IdSet) : IdSet := Std.TreeSet.ofList (objs.toList.filterMap m.partOf?)
  { globalObjs, forkObjs, globalParts := parts globalObjs,
    forkParts := forkObjs.map fun _ => parts }

/-- The partitions that the argument of some fork shows. -/
def allForkParts (x : Escape) : IdSet :=
  x.forkParts.foldl (fun all _ parts => parts.foldl (·.insert ·) all) ∅

/-- Whether a partition is seen by another thread. -/
def escapes (x : Escape) (p : PartId) : Bool :=
  x.globalParts.contains p || x.forkParts.any fun _ parts => parts.contains p

/-- Whether the threads of a fork see a partition. -/
def escapesTo (x : Escape) (p : PartId) (site : InstId) : Bool :=
  x.globalParts.contains p || (x.forkParts.getD site ∅).contains p

/-- The forks whose threads see a partition. -/
def visibleForks (x : Escape) (p : PartId) : List InstId := x.forkParts.keys.filter (x.escapesTo p)

/-- Whether a pointer shows an object reached from a global. -/
def isGlobalVisible (x : Escape) (t : PointsTo) (v : ValueId) : Bool :=
  (shown t v).any x.globalObjs.contains

/-- Whether a pointer shows an object reached from the argument of a fork. -/
def isForkVisible (x : Escape) (t : PointsTo) (v : ValueId) (site : InstId) : Bool :=
  (shown t v).any (x.forkObjs.getD site ∅).contains

end Escape

namespace Partitioning

/-- Prune the partitions that no other thread sees. -/
def pruneHidden (m : Partitioning) (x : Escape) : Partitioning :=
  m.map fun p => if x.escapes p.id then p else p.keepAccesses fun _ => false

/-- Collect the risky pairs under the forks that see each partition. -/
def seedVisible {μ : Type → Type} [Monad μ] (m : Partitioning) (s : Subject) (ops : Operations)
    (par : Parallelism) (x : Escape) (ruledOut : AccessId → Point → PartId → μ Bool) :
    μ Partitioning :=
  m.seed s ops par (fun p site => (x.visibleForks p).contains site) ruledOut

end Partitioning

end DataRace
