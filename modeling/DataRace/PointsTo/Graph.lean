import DataRace.PointsTo.Object

/-!
# DataRace.PointsTo.Graph

The assignment graph: how pointers flow between values and memory objects.

Nodes are numbered values first, objects after them.  An edge is kept once,
and edges are listed in the order in which they were added.
-/

namespace DataRace

/-- A node of the assignment graph. -/
abbrev NodeId := Nat

/-- What an edge from `src` to `dst` means. -/
inductive EdgeKind where
  /-- The target `dst` holds the address of the object `src`. -/
  | addr
  /-- The target `dst` holds what `src` holds. -/
  | copy
  /-- The target `dst` holds what the objects `src` points to hold. -/
  | load
  /-- The objects `dst` points to hold what `src` holds. -/
  | store
  /-- The target `dst` points to the given field of what `src` points to. -/
  | field (offset : Nat)
  /-- The target `dst` points to some field of what `src` points to. -/
  | index
  /-- An argument is passed at a call. -/
  | call (site : InstId)
  /-- A returned value becomes the result of a call. -/
  | ret (site : InstId)
  /-- A routine argument is passed at a spawn. -/
  | fork (site : InstId)
  /-- A thread's returned value is picked up by a join; the label is the spawn. -/
  | join (site : InstId)
deriving DecidableEq, Inhabited

/-- A labelled edge. -/
structure Edge where
  src : NodeId
  dst : NodeId
  kind : EdgeKind
deriving DecidableEq, Inhabited

/-- What a node stands for. -/
inductive Node where
  | value (v : ValueId)
  | object (o : ObjId)
deriving DecidableEq, Inhabited

/-- The assignment graph. -/
structure AssignGraph where
  valueCount : Nat
  /-- All edges in the order they were added. -/
  edges : Array Edge := #[]
  /-- The edges that leave each node. -/
  outgoing : Array (List Edge)
  /-- The edges that enter each node. -/
  incoming : Array (List Edge)
deriving Inhabited

namespace AssignGraph

/-- The graph without edges over that many values and objects. -/
def ofCounts (values objs : Nat) : AssignGraph where
  valueCount := values
  outgoing := Array.replicate (values + objs) []
  incoming := Array.replicate (values + objs) []

def valueNode (_ : AssignGraph) (v : ValueId) : NodeId := v

def objNode (g : AssignGraph) (o : ObjId) : NodeId := g.valueCount + o

/-- What a node stands for. -/
def node (g : AssignGraph) (n : NodeId) : Node :=
  if n < g.valueCount then .value n else .object (n - g.valueCount)

/-- The object behind a node. -/
def asObj (g : AssignGraph) (n : NodeId) : Option ObjId :=
  if n < g.valueCount then none else some (n - g.valueCount)

def nodeCount (g : AssignGraph) : Nat := g.outgoing.size

def outEdges (g : AssignGraph) (n : NodeId) : List Edge := g.outgoing.getD n []

def inEdges (g : AssignGraph) (n : NodeId) : List Edge := g.incoming.getD n []

def contains (g : AssignGraph) (e : Edge) : Bool := (g.outEdges e.src).contains e

/-- Add an edge, unless it is there. -/
def insert (g : AssignGraph) (e : Edge) : AssignGraph :=
  if g.contains e then
    g
  else
    { g with
      edges := g.edges.push e
      outgoing := g.outgoing.modify e.src (· ++ [e])
      incoming := g.incoming.modify e.dst (· ++ [e]) }

end AssignGraph

end DataRace
