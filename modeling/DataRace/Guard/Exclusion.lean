import DataRace.Guard.Basic
import DataRace.Partition.Basic

/-!
# DataRace.Guard.Exclusion

Accesses that exclude each other by their guards.

Two places guarded by opposite comparisons of one global with one constant
cannot both run, as long as the global holds the same value at both
comparisons.  It may not when a store comes between them on one thread, or when
a store on another thread may still race with one of the loads.
-/

namespace DataRace

/-- That a global compares to a constant in a certain way. -/
structure GlobalTest where
  ptr : ValueId
  const : Int64
  pred : Predicate
deriving DecidableEq, Inhabited

/-- Where a test of a global was read: the comparison and the load. -/
structure GlobalTest.Evidence where
  cmp : InstId
  load : InstId
deriving DecidableEq, Inhabited

namespace GlobalTest

/-- Read a comparison of a loaded global with a constant on either side. -/
def read (p : Program) : Guard.Reader GlobalTest Evidence := fun cond outcome => do
  let cmp ← p.defInst cond
  match p.op cmp with
  | .compare pred lhs rhs =>
    let (var, const, pred) ←
      match p.constValue rhs, p.constValue lhs with
      | some c, _ => some (lhs, c, pred)
      | none, some c => some (rhs, c, pred.swap)
      | none, none => none
    let load ← p.defInst var
    match p.op load with
    | .load ptr =>
      let _ ← p.asGlobal ptr
      some ⟨⟨ptr, const, if outcome then pred else pred.inverse⟩, ⟨cmp, load⟩⟩
    | _ => none
  | _ => none

/-- The text of a test. -/
def text (t : GlobalTest) : String := s!"*v{t.ptr} {t.pred.mnemonic} {t.const.toInt}"

/-- Whether two tests never hold of one value of the global. -/
def excludes (a b : GlobalTest) : Bool :=
  a.ptr == b.ptr && a.const == b.const && a.pred = b.pred.inverse

end GlobalTest

/-- A guard on a global. -/
abbrev GlobalGuard := Guard GlobalTest GlobalTest.Evidence

/-! ## Where a global changes -/

namespace Subject

/-- The code that may run after a site, in its function and in the functions called from there. -/
def codeAfter (s : Subject) (site : InstId) : CodeSet :=
  let p := s.program
  let code := ({} : Cut).after p ∅ site
  { code with funcs := s.functionsFrom (s.enteredAt (p.funcOf site) (code.covers p)) }

/-- The stores to a pointer. -/
def storesTo (s : Subject) (ptr : ValueId) : List InstId :=
  (s.program.users ptr).filter fun i =>
    match s.program.op i with
    | .store q _ => q = ptr
    | _ => false

/-- The calls through which a store to a pointer may run. -/
def callsToStores (s : Subject) (ptr : ValueId) : List InstId :=
  let p := s.program
  let callers := reachable p.funcs.size (fun f => (s.calls.edgesTo f).map (·.caller))
    ((s.storesTo ptr).map p.funcOf)
  callers.toList.flatMap s.callSites

/-- Whether a pointer may be stored to between two loads on one thread. -/
def splits (s : Subject) (ptr : ValueId) (i j : InstId) : Bool :=
  (s.storesTo ptr ++ s.callsToStores ptr).any fun site =>
    let code := s.codeAfter site
    code.covers s.program i != code.covers s.program j

end Subject

/-- The instructions that may race with one of two instructions. -/
def Partition.partners (part : Partition) (ops : Operations) (i j : InstId) : List InstId :=
  part.risky.pairs.toList.filterMap fun (a, b) =>
    let x := (ops.get a).inst
    let y := (ops.get b).inst
    if x = i || x = j then some y else if y = i || y = j then some x else none

/-- Whether two loads of a pointer may read different values. -/
def Partitioning.mayDiffer (m : Partitioning) (s : Subject) (ops : Operations) (ptr : ValueId)
    (i j : InstId) : Bool :=
  s.splits ptr i j ||
    match (s.pointers.only? ptr).bind fun o => m.parts.find? (·.objs.contains o) with
    | none => true
    | some part =>
      part.risky.isOverBudget || (s.storesTo ptr).any (part.partners ops i j).contains

/-! ## The filter -/

/-- What the filter has looked at so far. -/
structure Exclusion where
  guards : GuardTable GlobalTest GlobalTest.Evidence := { inherits := true }
  /-- The globals whose changes were looked for. -/
  globals : IdSet := ∅

namespace Exclusion

/-- The guards of an instruction, those of its callers included. -/
def guardsOf (s : Subject) (i : InstId) : StateM Exclusion (List GlobalGuard) :=
  modifyGet fun x =>
    let (gs, guards) := x.guards.guards s (GlobalTest.read s.program) (s.program.blockOf i)
    (gs, { x with guards })

/-- Whether two loads of a pointer may read different values. -/
def mayDiffer (s : Subject) (ops : Operations) (m : Partitioning) (ptr : ValueId) (i j : InstId) :
    StateM Exclusion Bool := do
  modify fun x => { x with globals := x.globals.insert ptr }
  return m.mayDiffer s ops ptr i j

/-- Whether the first pair of guards that exclude each other on one value exists. -/
def anyExcludes (s : Subject) (ops : Operations) (m : Partitioning) :
    List (GlobalGuard × GlobalGuard) → StateM Exclusion Bool
  | [] => return false
  | (g, h) :: rest => do
    if !g.fact.excludes h.fact then
      anyExcludes s ops m rest
    else if ← mayDiffer s ops m g.fact.ptr g.evidence.load h.evidence.load then
      anyExcludes s ops m rest
    else
      return true

/-- Whether some of the guards of two places exclude each other. -/
def exclude (s : Subject) (ops : Operations) (m : Partitioning) (gs hs : List GlobalGuard) :
    StateM Exclusion Bool :=
  anyExcludes s ops m (gs.flatMap fun g => hs.map (g, ·))

/-- Whether each of the forks is excluded by one of two instructions. -/
def excludeForks (s : Subject) (ops : Operations) (m : Partitioning) (same : Bool)
    (gs hs : List GlobalGuard) : List InstId → StateM Exclusion Bool
  | [] => return true
  | fork :: rest => do
    let fs ← guardsOf s fork
    if ← exclude s ops m gs fs then
      excludeForks s ops m same gs hs rest
    else if same then
      return false
    else if ← exclude s ops m hs fs then
      excludeForks s ops m same gs hs rest
    else
      return false

/-- Whether two instructions never both run after a fork that makes them parallel. -/
def apart (s : Subject) (ops : Operations) (par : Parallelism) (m : Partitioning) (i j : InstId) :
    StateM Exclusion Bool := do
  let gs ← guardsOf s i
  let hs ← guardsOf s j
  let exclusive ← if i = j then pure false else exclude s ops m gs hs
  if exclusive then
    return true
  else
    excludeForks s ops m (i = j) gs hs (par.mayRunParallel s.program i j).toList

end Exclusion

end DataRace
