import DataRace.Alias.CallPath

/-!
# DataRace.Alias.Refinement

Risky pairs whose pointers never meet.

For every pair of points under which two accesses may run in parallel, both
pointers are resolved under contexts that stand for the points: rooted there,
or one call string after the other.  The accesses are apart when no resolution
meets.  A query without an answer keeps the pair.
-/

namespace DataRace

/-- How many pairs the refinement looked at. -/
structure AliasCounts where
  refined : Nat := 0
  unrefined : Nat := 0
  outOfBudget : Nat := 0
  cache : CacheCounts := {}
deriving Inhabited

namespace AliasCounts

/-- Refined pairs in percent. -/
def rate (c : AliasCounts) : Float :=
  if c.refined + c.unrefined = 0 then 0.0
  else Float.ofNat c.refined * 100.0 / Float.ofNat (c.refined + c.unrefined)

/-- All pairs, as a 64-bit word. -/
def pairs (c : AliasCounts) : Except Error Nat :=
  if c.refined + c.unrefined < UInt64.size then
    .ok (c.refined + c.unrefined)
  else
    .error .outOfRange

/-- The counts in one line. -/
def text (c : AliasCounts) : String :=
  s!"refined {c.refined} / {c.refined + c.unrefined} pairs (" ++ Text.fixed 1 c.rate ++
    s!"%), {c.outOfBudget} out of budget, cache " ++ c.cache.text

end AliasCounts

/-- The refinement with what it learnt. -/
structure AliasRefinement where
  solver : AliasSolver
  refined : Nat := 0
  unrefined : Nat := 0
deriving Inhabited

/-- A step of the refinement.  It may be broken off, and what was learnt is kept even then. -/
abbrev Refine := ExceptT Error (StateM AliasRefinement)

namespace AliasRefinement

/-- A refinement that has learnt nothing yet; `none` when contexts are disabled. -/
def start (c : Config) (log : Log) : Option AliasRefinement :=
  if c.contextMode = .disabled then none else some { solver := { budget := c.aliasBudget, log } }

def counts (r : AliasRefinement) : AliasCounts where
  refined := r.refined
  unrefined := r.unrefined
  outOfBudget := r.solver.exhausted
  cache := r.solver.cache.counts

/-- The refinement without what it learnt. -/
def reset (r : AliasRefinement) : AliasRefinement := { solver := r.solver.reset }

/-- What the pointer of an access points to. -/
def resolve (x : AliasScope) (a : Access) (c : Context) : Refine Reached := do
  let r ← get
  let (found, solver) := (AliasSolver.pointsTo x (x.graph.valueNode a.ptr) c).run.run r.solver
  set { r with solver }
  MonadExcept.ofExcept found

/-- Whether an access is a call and touches whole objects. -/
def isWhole (x : AliasScope) (a : Access) : Bool := x.subject.program.isCall a.inst

/-- Whether the pointers of two accesses certainly never meet under two contexts. -/
def apartUnder (x : AliasScope) (a b : Access) (c d : Context) : Refine Bool := do
  let s ← resolve x a c
  if !s.isSolved then
    return false
  else
    let t ← resolve x b d
    if !t.isSolved then
      return false
    else
      let t := if isWhole x a then t.withBasesOfFields x.graph x.objs else t
      let s := if isWhole x b then s.withBasesOfFields x.graph x.objs else s
      let s := s.withBasesOfFirstFields x.graph x.objs
      let t := t.withBasesOfFirstFields x.graph x.objs
      return !s.mayAlias t x.unknownNode

/-- Whether the pointers never meet under any of some pairs of contexts. -/
def apartUnderAll (x : AliasScope) (a b : Access) : List (Context × Context) → Refine Bool
  | [] => return true
  | (c, d) :: rest => do
    if ← apartUnder x a b c d then apartUnderAll x a b rest else return false

/-- The contexts that stand for two points at two instructions; `none` when they are too many. -/
def contextsAt (x : AliasScope) (i j : InstId) (q r : Point) : Option (List (Context × Context)) :=
  match x.subject.config.contextMode with
  | .standard => (x.contextPairs i q j r).toOption
  | _ => some [(.rooted q, .rooted r)]

/-- Whether two accesses are apart at all of some pairs of points. -/
def apartAtAll (x : AliasScope) (a b : Access) : List (Point × Point) → Refine Bool
  | [] => return true
  | (q, r) :: rest => do
    match contextsAt x a.inst b.inst q r with
    | none => return false
    | some contexts =>
      if ← apartUnderAll x a b contexts then apartAtAll x a b rest else return false

/-- Whether two accesses never touch the same object while they run in parallel. -/
def apart (x : AliasScope) (a b : Access) : Refine Bool := do
  let refined ← apartAtAll x a b (x.par.parallelPoints x.subject.program a.inst b.inst)
  modify fun r =>
    if refined then { r with refined := r.refined + 1 } else { r with unrefined := r.unrefined + 1 }
  return refined

/-- Whether a resolved access touches none of some objects. -/
def avoids (x : AliasScope) (a : Access) (objs : IdSet) (found : Reached) : Bool :=
  (found.entries.keys.filterMap x.graph.asObj).all fun o =>
    !(x.obj o).isUnknown &&
      !(if isWhole x a then x.objs.allFields o else [o]).any objs.contains

/-- Whether an access at a point touches none of some objects.  Call strings do not stand for one
point, so with them nothing is ruled out. -/
def ruledOut (x : AliasScope) (a : Access) (q : Point) (objs : IdSet) : Refine Bool := do
  if x.subject.config.contextMode = .standard then
    return false
  else
    let found ← resolve x a (.rooted q)
    return found.isSolved && avoids x a objs (found.withBasesOfFirstFields x.graph x.objs)

end AliasRefinement

end DataRace
