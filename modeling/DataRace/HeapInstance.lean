import DataRace.Parallel.Basic
import DataRace.Partition.Escape

/-!
# DataRace.HeapInstance

Accesses to different instances of one heap object.

An object allocated in a loop and handed to exactly one spawn in the same loop
gives each thread an instance of its own.  An access on the spawning thread can
then meet the spawned thread only when it uses the instance of the same
iteration after the spawn.

The address is followed through casts, projections and phis in its function.
Once it is stored or returned nothing is known.
-/

namespace DataRace

/-- Where the address of an allocation goes inside its function. -/
structure HeapFlow where
  /-- The only spawn in the same loop that gets the address. -/
  spawn : Option InstId := none
  /-- The accesses through pointers made of nothing but the address. -/
  accesses : IdSet := ∅
  /-- The other calls that get the address. -/
  calls : IdSet := ∅
deriving Inhabited

/-- What an instruction does with a value that holds the address. -/
inductive HeapUse where
  /-- It keeps the address where it cannot be followed. -/
  | leak
  | access
  | spawn
  | call
  /-- It makes another value of it. -/
  | derive
  /-- It does nothing that matters. -/
  | none
deriving DecidableEq, Inhabited

namespace HeapFlow

/-- Whether a value is made of the result of an instruction by casts and projections only. -/
def isMadeOf (p : Program) (alloc : InstId) (v : ValueId) : Bool :=
  p.defInst (p.basePointer v) == some alloc

/-- The values that the address may flow to. -/
def values (p : Program) (addr : ValueId) : IdSet :=
  reachable p.values.size (fun v => (p.users v).filterMap fun i =>
    match p.op i with
    | .store .. | .load _ | .ret _ | .call .. => none
    | _ => p.result i) [addr]

/-- What an instruction does with the address of an allocation. -/
def useOf (s : Subject) (alloc : InstId) (isGlobal : Bool) (v : ValueId) (i : InstId) : HeapUse :=
  let p := s.program
  let loopOf := (s.flowOf alloc).loops.loopOfInst p
  let sameLoop := loopOf i == loopOf alloc
  let accessIf (ptr : ValueId) : HeapUse :=
    if ptr = v && sameLoop && isMadeOf p alloc v then .access else .none
  match p.op i with
  | .store ptr val => if val = v then .leak else accessIf ptr
  | .load ptr => accessIf ptr
  | .ret _ => .leak
  | .call .. =>
    if p.isMemoryCall i then .access
    else if p.isSpawn i then
      if sameLoop && (p.routineArg i).any (isMadeOf p alloc) then .spawn else .none
    else if isGlobal then .leak
    else .call
  | _ => .derive

/-- Follow the address of an allocation. -/
def of (s : Subject) (x : Escape) (alloc : InstId) : HeapFlow :=
  let p := s.program
  match p.result alloc with
  | none => {}
  | some addr =>
    let isGlobal := x.isGlobalVisible s.pointers addr
    let uses := (values p addr).toList.flatMap fun v =>
      (p.users v).map fun i => (i, useOf s alloc isGlobal v i)
    let sitesOf (use : HeapUse) := (uses.filter (·.2 = use)).map (·.1)
    if uses.any (·.2 = .leak) then
      {}
    else
      { spawn := single? (sitesOf .spawn)
        accesses := Std.TreeSet.ofList (sitesOf .access)
        calls := Std.TreeSet.ofList (sitesOf .call) }

end HeapFlow

namespace Subject

/-- The allocation of a heap object. -/
def heapAllocation? (s : Subject) (o : ObjId) : Option InstId :=
  let obj := s.pointers.obj o
  match obj.origin with
  | .alloc i => if obj.isHeap then some i else none
  | _ => none

/-- Whether an instruction may run after a spawn in the same iteration of the loop around it. -/
def runsInIteration (s : Subject) (spawn i : InstId) : Bool :=
  let p := s.program
  let loops := (s.flowOf spawn).loops
  let b := p.blockOf spawn
  let header := (loops.loopOf b).map fun l => (loops.get l).header
  let isOpen (c : BlockId) := some c != header && c != b
  let next (c : BlockId) := (p.block c).succs.filter isOpen
  ((p.instsAfter spawn).takeWhile fun j => !(p.op j).isTerminator).contains i ||
    some b != header && (reachable p.blocks.size next (next b)).contains (p.blockOf i)

/-- Whether two instructions certainly access different instances of an object. -/
def differentInstances (s : Subject) (par : Parallelism) (x : Escape) (o : ObjId) (i j : InstId) :
    Bool :=
  let p := s.program
  match s.heapAllocation? o with
  | none => false
  | some alloc =>
    let flow := HeapFlow.of s x alloc
    match flow.spawn with
    | none => false
    | some spawn =>
      let branch := (par.codeOf spawn).branch
      let onBranch := branch.covers p i
      let trunk := if onBranch then j else i
      let meets (call : InstId) := (s.calls.calleesAt call).any fun f =>
        (s.functionsFrom [f]).contains (p.funcOf trunk)
      let uses := (if flow.accesses.contains trunk then [trunk] else []) ++
        flow.calls.toList.filter meets
      (onBranch || branch.covers p j) && !uses.any (s.runsInIteration spawn)

end Subject

end DataRace
