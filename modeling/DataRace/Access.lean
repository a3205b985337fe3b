import DataRace.Partition.RiskyPairs
import DataRace.Subject

/-!
# DataRace.Access

The memory accesses and synchronisation sites of the live functions.

Accesses are numbered in the order of functions, blocks and instructions.
A call that copies memory reads its source and writes its destination.
-/

namespace DataRace

/-- A memory access. -/
structure Access where
  inst : InstId
  ptr : ValueId
  isWrite : Bool
deriving DecidableEq, Inhabited

/-- The accesses and synchronisation sites of a program. -/
structure Operations where
  accesses : Array Access
  spawns : List InstId
  joins : List InstId
  locks : List InstId
  unlocks : List InstId
  barriers : List InstId
  parallelFors : List InstId
deriving Inhabited

namespace Operations

/-- The accesses an instruction performs. -/
def accessesBy (p : Program) (freeWrites : Bool) (i : InstId) : List Access :=
  let writes (v : Option ValueId) : List Access := v.toList.map (⟨i, ·, true⟩)
  match p.op i with
  | .load ptr => [⟨i, ptr, false⟩]
  | .store ptr _ => [⟨i, ptr, true⟩]
  | .call .. =>
    match p.libraryCall? i with
    | some .memSet => writes ((p.destPtr i).map p.stripCasts)
    | some .free => if freeWrites then writes ((p.destPtr i).map p.stripCasts) else []
    | some .memCopy => (p.srcPtr i).toList.map (⟨i, ·, false⟩) ++ writes (p.destPtr i)
    | _ => []
  | _ => []

/-- Collect from the live functions. -/
def collect (s : Subject) : Operations :=
  let p := s.program
  let insts := (p.funcIds.filter s.isAnalyzable).flatMap p.funcInsts
  { accesses := (insts.flatMap (accessesBy p s.config.freeWrites)).toArray
    spawns := insts.filter p.isSpawn
    joins := insts.filter p.isJoin
    locks := insts.filter p.isLock
    unlocks := insts.filter p.isUnlock
    barriers := insts.filter p.isBarrierWait
    parallelFors := insts.filter p.isParallelFor }

def get (ops : Operations) (a : AccessId) : Access := ops.accesses.getD a default

def ids (ops : Operations) : List AccessId := List.range ops.accesses.size

/-- The accesses of one instruction. -/
def of (ops : Operations) (i : InstId) : List AccessId :=
  ops.ids.filter fun a => (ops.get a).inst = i

/-- The instructions that access memory, ascending. -/
def insts (ops : Operations) : List InstId :=
  (Std.TreeSet.ofList (ops.accesses.toList.map (·.inst)) : IdSet).toList

end Operations

end DataRace
