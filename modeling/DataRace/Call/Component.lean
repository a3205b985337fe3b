import DataRace.Call.Graph

/-!
# DataRace.Call.Component

The strongly connected components of the call graph, by Tarjan's algorithm.

A component holds the functions that reach each other over calls and forks.  A
search in depth numbers the functions as it enters them and keeps those whose
component is not known yet on a stack.  The low-link of a function is the
smallest number it was found to lead back to; a function whose low-link is its
own number is the first of its component that was entered, and the others stand
above it on the stack.  A component is found after all that it leads to, so they
are numbered callees first.
-/

namespace DataRace

/-- Functions that reach each other. -/
structure Component where
  /-- The smallest member. -/
  rep : FuncId
  /-- The members, ascending. -/
  members : List FuncId
  /-- A member may call itself, directly or through others. -/
  recursive : Bool
deriving Inhabited

/-- A component, by its position. -/
abbrev ComponentId := Nat

/-- The components of a call graph, callees first. -/
structure Components where
  list : Array Component := #[]
  /-- The component of each defined function. -/
  index : IdMap ComponentId := ∅
deriving Inhabited

/-- How far the search has got with a function. -/
inductive NodeState where
  | unvisited
  /-- It is entered, and its component is not known yet. -/
  | onStack
  /-- Its component is found. -/
  | finished
deriving DecidableEq

/-- The search for components, while it goes on. -/
structure ComponentSearch where
  /-- The number of the next function that is entered. -/
  index : Nat := 0
  /-- The numbers of the functions entered. -/
  indices : IdMap Nat := ∅
  lowlinks : IdMap Nat := ∅
  states : IdMap NodeState := ∅
  /-- The functions whose component is not known yet, the last one entered first. -/
  stack : List FuncId := []
  /-- The components found so far. -/
  found : Components := {}

namespace ComponentSearch

/-- No function is visited yet. -/
def start (fs : List FuncId) : ComponentSearch where
  states := fs.foldl (fun m f => m.insert f .unvisited) ∅

/-- The number of a function that is entered. -/
def indexOf (s : ComponentSearch) (v : FuncId) : Nat := s.indices.getD v 0

/-- The smallest number that a function was found to lead back to. -/
def lowlinkOf (s : ComponentSearch) (v : FuncId) : Nat := s.lowlinks.getD v 0

/-- Number a function and put it on the stack. -/
def enter (s : ComponentSearch) (v : FuncId) : ComponentSearch :=
  { s with
    index := s.index + 1
    indices := s.indices.insert v s.index
    lowlinks := s.lowlinks.insert v s.index
    states := s.states.insert v .onStack
    stack := v :: s.stack }

/-- A function leads back to number `n`. -/
def lower (s : ComponentSearch) (v : FuncId) (n : Nat) : ComponentSearch :=
  { s with lowlinks := s.lowlinks.insert v (min (s.lowlinkOf v) n) }

/-- The function on top of the stack is in component `k`. -/
def pop (s : ComponentSearch) (k : ComponentId) (w : FuncId) : ComponentSearch :=
  { s with
    states := s.states.insert w .finished
    stack := s.stack.tail
    found := { s.found with index := s.found.index.insert w k } }

/-- Pop the functions of a stack down to `v` into component `k`, and list them. -/
def popTo (v : FuncId) (k : ComponentId) : List FuncId → ComponentSearch →
    List FuncId × ComponentSearch
  | [], s => ([], s)
  | w :: ws, s =>
    if w = v then
      ([w], s.pop k w)
    else
      let (popped, s) := popTo v k ws (s.pop k w)
      (w :: popped, s)

/-- The functions on the stack down to `v` are a component. -/
def emit (s : ComponentSearch) (v : FuncId) (selfLoop : Bool) : ComponentSearch :=
  let (popped, s) := popTo v s.found.list.size s.stack s
  let members := (Std.TreeSet.ofList popped : IdSet).toList
  let component : Component :=
    { rep := members.headD v
      members
      recursive := members.length > 1 || selfLoop }
  { s with found := { s.found with list := s.found.list.push component } }

/-- Follow an edge out of `v`; `connect` is the search from a function not visited yet. -/
def follow (connect : ComponentSearch → FuncId → ComponentSearch) (v : FuncId) :
    ComponentSearch × Bool → CallEdge → ComponentSearch × Bool
  | (s, selfLoop), e =>
    let w := e.callee
    let selfLoop := selfLoop || w = v
    match s.states[w]? with
    | some .unvisited =>
      let s := connect s w
      (s.lower v (s.lowlinkOf w), selfLoop)
    | some .onStack => (s.lower v (s.indexOf w), selfLoop)
    | _ => (s, selfLoop)

/-- Search from `v`, at most `depth` calls deep: every function entered on the way either gets its
component or stays on the stack above one it leads back to. -/
def connect (g : CallGraph) : (depth : Nat) → ComponentSearch → FuncId → ComponentSearch
  | 0, s, _ => s
  | depth + 1, s, v =>
    let (s, selfLoop) := (g.edgesFrom v).foldl (follow (connect g depth) v) (s.enter v, false)
    if s.lowlinks[v]? = s.indices[v]? then s.emit v selfLoop else s

/-- Search from a function unless it is visited. -/
def visit (g : CallGraph) (depth : Nat) (s : ComponentSearch) (v : FuncId) : ComponentSearch :=
  if s.states[v]? = some .unvisited then s.connect g depth v else s

end ComponentSearch

namespace Components

/-- The components of a call graph.  Every call of the search enters another function, so it gets
no deeper than there are functions. -/
def ofGraph (p : Program) (g : CallGraph) : Components :=
  let defined := p.funcIds.filter fun f => !(p.func f).isDeclaration
  (defined.foldl (ComponentSearch.visit g defined.length) (.start defined)).found

def get (cs : Components) (c : ComponentId) : Component := cs.list.getD c default

/-- The component of a defined function. -/
def of? (cs : Components) (f : FuncId) : Option ComponentId := cs.index[f]?

/-- All components, callees first. -/
def bottomUp (cs : Components) : List ComponentId := List.range cs.list.size

/-- All components, callers first. -/
def topDown (cs : Components) : List ComponentId := cs.bottomUp.reverse

/-- Whether a function is in a recursive component. -/
def isRecursive (cs : Components) (f : FuncId) : Bool :=
  (cs.of? f).any fun c => (cs.get c).recursive

/-- The functions in recursive components. -/
def recursiveFunctions (cs : Components) : IdSet :=
  cs.list.foldl (fun s c => if c.recursive then c.members.foldl (·.insert ·) s else s) ∅

end Components

end DataRace
