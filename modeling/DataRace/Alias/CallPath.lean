import DataRace.Alias.Solver

/-!
# DataRace.Alias.CallPath

The call strings behind a point.

For an instruction on one side of a spawn these are the chains of calls from
`main` down to it that stay in the code of that side.  A path on the trunk
remembers where it split from the branch: the site through which the spawn
takes effect on it.  A path on the branch can run beside it only when it
passes that site too.  Under a parallel loop the chains start at the loop.
-/

namespace DataRace

/-- Why call paths are not listed. -/
inductive PathFailure where
  /-- There are too many paths, or too many pairs of them. -/
  | outOfBudget
  /-- There is no `main` to start from. -/
  | noMain
deriving DecidableEq, Inhabited

namespace PathFailure

/-- How a search for paths ended. -/
def outcome {α : Type} : Except PathFailure α → String
  | .ok _ => "solved"
  | .error .outOfBudget => "out of budget"
  | .error .noMain => "failed"

/-- The outcome before any search. -/
def initial : String := "init"

end PathFailure

/-- A chain of calls to an instruction. -/
structure CallPath where
  /-- The call sites, from the outermost to the innermost. -/
  sites : List InstId
  /-- Where the path splits from the other side of the fork. -/
  split : Option InstId := none
deriving DecidableEq, Inhabited

namespace AliasScope

/-- Whether control may come from one instruction to another inside their function. -/
def comesFrom (x : AliasScope) (i site : InstId) : Bool :=
  let p := x.subject.program
  let preds (b : BlockId) := (p.block b).preds
  (p.instsBefore i).contains site ||
    (reachable p.blocks.size preds (preds (p.blockOf i))).contains (p.blockOf site)

/-- The first site at which a spawn takes effect on the way to an instruction. -/
def splitSite? (x : AliasScope) (i spawn : InstId) : Option InstId := do
  let sites ← x.par.affectedSites x.subject (x.subject.program.funcOf i) spawn
  sites.toList.find? (x.comesFrom i)

/-- Where a path of a point splits once it is continued at a call site; `none` when it leaves the
code of the point. -/
def continueAt (x : AliasScope) (q : Point) (split : Option InstId) (site : InstId) :
    Option (Option InstId) :=
  let p := x.subject.program
  match split, q.side with
  | some s, _ => some (some s)
  | none, .trunk =>
    match x.splitSite? site q.spawn with
    | some s => some (some s)
    | none => if (x.par.codeOf q.spawn).trunk.covers p site then some none else none
  | none, .branch =>
    if site = q.spawn then some (some site)
    else if (x.par.codeOf q.spawn).branch.covers p site then some none
    else none
  | none, .not => none

/-- The sites that may enter the function of an instruction and are not on a path. -/
def entrances (x : AliasScope) (i : InstId) (path : List InstId) : List InstId :=
  let s := x.subject
  ((s.calls.edgesTo (s.program.funcOf i)).filter fun e =>
    s.calls.isLive e.caller && !path.contains e.site).map (·.site)

/-- Append a path, unless there are enough. -/
def addPath (limit : Nat) (paths : List CallPath) (path : CallPath) : Option (List CallPath) :=
  if paths.length ≥ limit then none else some (paths ++ [path])

/-- Add the paths from `main` that continue a path, the last entrance first. -/
def pathsFrom (x : AliasScope) (limit : Nat) (main : FuncId) (q : Point) :
    Nat → List InstId → List CallPath → InstId × Option InstId → Option (List CallPath)
  | 0, _, found, _ => some found
  | depth + 1, below, found, (i, split) =>
    let path := i :: below
    let f := x.subject.program.funcOf i
    if !x.subject.calls.isLive f then
      some found
    else if f = main then
      addPath limit found { sites := path.dropLast, split }
    else
      let next := (x.entrances i path).filterMap fun site =>
        (x.continueAt q split site).map (site, ·)
      next.reverse.foldlM (pathsFrom x limit main q depth path) found

/-- Add the paths from a parallel loop that continue a path: those that start here, then those
through other entrances, the last first. -/
def loopPathsFrom (x : AliasScope) (limit : Nat) (loop : InstId) :
    Nat → List InstId → List CallPath → InstId → Option (List CallPath)
  | 0, _, found, _ => some found
  | depth + 1, below, found, i => do
    let path := i :: below
    let (here, further) := (x.entrances i path).partition (· = loop)
    let found ← here.foldlM
      (fun found _ => addPath limit found { sites := loop :: path.dropLast }) found
    further.reverse.foldlM (loopPathsFrom x limit loop depth path) found

/-- The paths to an instruction at a point.  A path repeats no site, which bounds its length. -/
def pathsTo (x : AliasScope) (i : InstId) (q : Point) : Except PathFailure (List CallPath) :=
  let p := x.subject.program
  let limit := x.subject.config.maxPathLength
  let listed (paths : Option (List CallPath)) : Except PathFailure (List CallPath) :=
    match paths with
    | some found => .ok found
    | none => .error .outOfBudget
  if x.par.isParallelLoop q.spawn then
    listed (x.loopPathsFrom limit q.spawn (p.insts.size + 1) [] [] i)
  else
    match p.main? with
    | none => .error .noMain
    | some main =>
      let split :=
        match q.side with
        | .trunk => x.splitSite? i q.spawn
        | .branch => if i = q.spawn then some i else none
        | .not => none
      listed (x.pathsFrom limit main q (p.insts.size + 1) [] [] (i, split))

/-- Whether a path on the branch may pass the place where the trunk splits off: its outermost site
in that function must be that place. -/
def passes (x : AliasScope) (branch : List InstId) (split : InstId) : Bool :=
  let p := x.subject.program
  (branch.find? fun site => p.funcOf site = p.funcOf split).all (· = split)

/-- Whether two paths at opposite points may be taken at the same time. -/
def isFeasible (x : AliasScope) (q : Point) (a b : CallPath) : Bool :=
  match a.split, b.split with
  | some s, some t => if q.side = .branch then x.passes a.sites t else x.passes b.sites s
  | _, _ => true

/-- The pairs of call strings under which two instructions run in parallel at two points. -/
def contextPairs (x : AliasScope) (i : InstId) (q : Point) (j : InstId) (r : Point) :
    Except PathFailure (List (Context × Context)) := do
  let as ← x.pathsTo i q
  let bs ← x.pathsTo j r
  if as.length * bs.length ≥ x.subject.config.maxPathPairs then
    throw .outOfBudget
  else
    let pairs := as.flatMap fun a => (bs.filter (x.isFeasible q a)).map (a, ·)
    return pairs.map fun (a, b) => ({ sites := a.sites }, { sites := b.sites })

end AliasScope

end DataRace
