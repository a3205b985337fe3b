import DataRace.Alias.Context
import DataRace.PointsTo.Graph

/-!
# DataRace.Alias.Reached

The answer of a context-sensitive query: nodes, each with the contexts under
which it is reached, and how far the query got.
-/

namespace DataRace

/-- How far a query got. -/
inductive Status where
  | fresh
  | inProcess
  | solved
  | outOfBudget
  | failed
deriving DecidableEq, Inhabited

namespace Status

def all : List Status := [fresh, inProcess, solved, outOfBudget, failed]

def text : Status → String
  | fresh => "fresh"
  | inProcess => "in process"
  | solved => "solved"
  | outOfBudget => "out of budget"
  | failed => "failed"

/-- Whether the query ended without an answer. -/
def isFailure : Status → Bool
  | outOfBudget | failed => true
  | _ => false

end Status

/-- Nodes with the contexts that reach them. -/
structure Reached where
  entries : IdMap (Std.TreeSet Context) := ∅
  status : Status := .fresh

namespace Reached

instance : Inhabited Reached := ⟨{}⟩

instance : EmptyCollection Reached := ⟨{}⟩

/-- The empty answer of a query that ended with that status. -/
def ofStatus (s : Status) : Reached := { status := s }

/-- Add a node under every one of the contexts. -/
def addAll (r : Reached) (n : NodeId) (cs : Std.TreeSet Context) : Reached :=
  { r with entries := r.entries.insert n (cs.foldl (·.insert ·) (r.entries.getD n ∅)) }

/-- Add a node under a context. -/
def add (r : Reached) (n : NodeId) (c : Context) : Reached :=
  { r with entries := r.entries.insert n ((r.entries.getD n ∅).insert c) }

/-- Add the entries of another answer. -/
def union (r s : Reached) : Reached := s.entries.foldl addAll r

def contains (r : Reached) (n : NodeId) : Bool := r.entries.contains n

def size (r : Reached) : Nat := r.entries.size

def isEmpty (r : Reached) : Bool := r.entries.isEmpty

def isSolved (r : Reached) : Bool := r.status = .solved

/-- Look for the node of an entry in an ascending list.  Smaller nodes are passed over; a list that
starts with a greater one is left as it is for the next entry. -/
def meetsFrom (next : List (NodeId × Std.TreeSet Context) → Bool) (n : NodeId)
    (cs : Std.TreeSet Context) : List (NodeId × Std.TreeSet Context) → Bool
  | [] => false
  | (m, ds) :: fs =>
    match compare n m with
    | .lt => next ((m, ds) :: fs)
    | .gt => meetsFrom next n cs fs
    | .eq => (cs.any fun c => ds.any fun d => c.compatible d) || next fs

/-- Whether two ascending lists of entries share a node under compatible contexts.  The lists are
gone through side by side. -/
def meetsAlong : List (NodeId × Std.TreeSet Context) → List (NodeId × Std.TreeSet Context) → Bool
  | [], _ => false
  | (n, cs) :: es, fs => meetsFrom (meetsAlong es) n cs fs

/-- Whether the two share a node under compatible contexts. -/
def meets (r s : Reached) : Bool := meetsAlong r.entries.toList s.entries.toList

/-- Whether the two may hold the same object.  The node of unknown memory meets anything. -/
def mayAlias (r s : Reached) (unknown : NodeId) : Bool :=
  (r.contains unknown && !s.isEmpty) || (s.contains unknown && !r.isEmpty) || r.meets s

/-- Add the base of every field object that is picked. -/
def withBases (r : Reached) (g : AssignGraph) (objs : ObjectTable) (pick : Nat → Bool) : Reached :=
  r.entries.foldl (fun acc n cs =>
    match g.asObj n with
    | none => acc
    | some o =>
      match (objs.get o).field with
      | some k => if pick k then acc.addAll (g.objNode (objs.baseOf o)) cs else acc
      | none => acc) r

/-- Add the base of every field: what touches a base may touch any of its fields. -/
def withBasesOfFields (r : Reached) (g : AssignGraph) (objs : ObjectTable) : Reached :=
  r.withBases g objs fun _ => true

/-- Add the base of every first field, which has the same address. -/
def withBasesOfFirstFields (r : Reached) (g : AssignGraph) (objs : ObjectTable) : Reached :=
  r.withBases g objs (· = 0)

end Reached

end DataRace
