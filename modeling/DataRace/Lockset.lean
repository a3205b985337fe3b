import DataRace.Guard.Basic

/-!
# DataRace.Lockset

The locks held at each instruction.

Callees first, a component is summarised by the locks it leaves acquired and
those it may release; a call acts like a lock or unlock site of these.
Callers first, protection then starts at the entry of a function, with the
locks held at all its calls, and after every lock site.  It spreads through
code dominated by the start, up to an unlock that may release one of the locks,
and goes on at the end of dominance where the guards imply those of the start.

In local mode no lock effect crosses a call.  Instead the accesses of all
functions called between lock and unlock are protected.
-/

namespace DataRace

/-- What a component does with locks. -/
structure LockSummary where
  /-- The locks it leaves acquired. -/
  acquired : IdSet := ∅
  /-- The locks it may release without having acquired them. -/
  released : IdSet := ∅
  /-- The accesses of the component and its callees, in local mode. -/
  accesses : IdSet := ∅
deriving Inhabited

/-- The lock and unlock sites of a function, calls included, with their locks. -/
structure LockSites where
  locks : IdMap IdSet := ∅
  unlocks : IdMap IdSet := ∅
deriving Inhabited

/-- The locks held at each instruction. -/
structure Locksets where
  summaries : IdMap LockSummary := ∅
  sites : IdMap LockSites := ∅
  held : IdMap IdSet := ∅
deriving Inhabited

namespace Locksets

/-- Whether two sets of locks may share one. -/
def mayShare (s : Subject) (a b : IdSet) : Bool := a.any fun x => b.any (s.pointers.mayAlias x)

/-- The summary of the component of a function. -/
def summaryOf (s : Subject) (l : Locksets) (f : FuncId) : Option LockSummary := do
  l.summaries[← s.components.of? f]?

/-- The locks a function leaves acquired. -/
def acquiredBy (s : Subject) (l : Locksets) (f : FuncId) : Option IdSet :=
  (l.summaryOf s f).map (·.acquired)

/-- The locks a function may release. -/
def releasedBy (s : Subject) (l : Locksets) (f : FuncId) : Option IdSet :=
  (l.summaryOf s f).map (·.released)

/-- Add the lock effects of an instruction to the sites of its function. -/
def addSite (s : Subject) (l : Locksets) (t : LockSites) (i : InstId) : LockSites :=
  let p := s.program
  let addTo (m : IdMap IdSet) (locks : IdSet) := if locks.isEmpty then m else m.addAllTo i locks
  let own : LockSites :=
    match p.lockPtr i with
    | none => t
    | some v =>
      if p.isLock i then { t with locks := t.locks.addTo i (p.stripCasts v) }
      else { t with unlocks := t.unlocks.addTo i (p.stripCasts v) }
  ((s.calls.calleesAt i).filterMap (l.summaryOf s)).foldl (fun t u =>
    { locks := addTo t.locks u.acquired, unlocks := addTo t.unlocks u.released }) own

/-- The lock and unlock sites of a function. -/
def sitesOf (s : Subject) (l : Locksets) (f : FuncId) : LockSites :=
  (s.program.funcInsts f).foldl (addSite s l) {}

/-- The unlock sites that may release one of some locks. -/
def unlocksOf (s : Subject) (t : LockSites) (locks : IdSet) : IdSet :=
  Std.TreeSet.ofList ((t.unlocks.toList.filter fun (_, u) => mayShare s locks u).map (·.1))

/-- Whether the locks taken at a site are still held at the return: no unlock stands between. -/
def keepsAcquired (s : Subject) (t : LockSites) (site : InstId) (locks : IdSet) (ret : InstId) :
    Bool :=
  let p := s.program
  let unlocks := unlocksOf s t locks
  let start := p.blockOf site
  let final := p.blockOf ret
  let isUnlock (i : InstId) := unlocks.contains i
  if start = final then
    !unlocks.any fun u => p.blockOf u = start && (p.inst site).pos < (p.inst u).pos &&
      (p.inst u).pos < (p.inst ret).pos
  else
    let back (b : BlockId) := (p.block b).preds.filter fun c => c != start && c != final
    let between := reachable p.blocks.size back (back final)
    !(p.instsBefore ret).any isUnlock && !(p.instsAfter site).any isUnlock &&
      !unlocks.any fun u => between.contains (p.blockOf u)

/-- The lock effects of a function from its sites. -/
def effectsOf (s : Subject) (t : LockSites) (f : FuncId) : LockSummary :=
  match (s.flow f).ret with
  | none => {}
  | some ret =>
    let all (m : List (InstId × IdSet)) : IdSet := m.foldl (fun u e => u ∪ e.2) ∅
    { acquired := all (t.locks.toList.filter fun (i, locks) =>
        s.dominates i ret && keepsAcquired s t i locks ret)
      released := all (t.unlocks.toList.filter fun (i, unlocked) =>
        !t.locks.toList.any fun (j, locks) => s.dominates j i && mayShare s locks unlocked) }

/-- Whether an instruction reads or writes memory. -/
def isAccess (p : Program) (i : InstId) : Bool :=
  match p.op i with
  | .load _ | .store .. => true
  | _ => p.isMemoryCall i

/-- The accesses of the functions called at an instruction. -/
def calleeAccesses (s : Subject) (l : Locksets) (i : InstId) : IdSet :=
  ((s.calls.calleesAt i).filterMap (l.summaryOf s)).foldl (fun u t => u ∪ t.accesses) ∅

/-- The accesses of a function and the functions it calls. -/
def accessesOf (s : Subject) (l : Locksets) (f : FuncId) : IdSet :=
  (s.program.funcInsts f).foldl (fun u i =>
    (if isAccess s.program i then u.insert i else u) ∪ calleeAccesses s l i) ∅

/-- Summarise a component. -/
def summarise (s : Subject) (l : Locksets) (c : ComponentId) : Locksets :=
  let members := (s.components.get c).members
  if s.config.localLocksets then
    let accesses := members.foldl (fun u f => u ∪ accessesOf s l f) ∅
    { l with summaries := l.summaries.insert c { accesses } }
  else
    let found := members.map fun f => (f, sitesOf s l f)
    let summary : LockSummary := found.foldl (fun u (f, t) =>
      let v := effectsOf s t f
      { acquired := u.acquired ∪ v.acquired, released := u.released ∪ v.released }) {}
    { l with
      summaries := l.summaries.insert c summary
      sites := found.foldl (fun m (f, t) => m.insert f t) l.sites }

/-! ## Spreading protection -/

/-- The blocks that a block leads to and `root` goes on dominating. -/
def succsInside (p : Program) (dom : Dominance) (root b : BlockId) : List BlockId :=
  (p.block b).succs.filter fun c => root != c && dom.dominates root c

/-- The blocks that a block leads to where `root` stops dominating. -/
def succsOutside (p : Program) (dom : Dominance) (root b : BlockId) : List BlockId :=
  (p.block b).succs.filter fun c => !(root != c && dom.dominates root c)

/-- The instructions that control goes on to while a block dominates them. -/
def nextInside (p : Program) (dom : Dominance) (root : BlockId) (i : InstId) : List InstId :=
  if (p.op i).isTerminator then (succsInside p dom root (p.blockOf i)).filterMap p.firstInst
  else (p.nextInst i).toList

/-- The instructions that control goes on to where a block stops dominating. -/
def nextOutside (p : Program) (dom : Dominance) (root : BlockId) (i : InstId) : List InstId :=
  if (p.op i).isTerminator then (succsOutside p dom root (p.blockOf i)).filterMap p.firstInst
  else []

/-- The instructions that run with the locks from `root` on while its block dominates them: not
seen before, and not behind an unlock. -/
def region (s : Subject) (unlocks seen : IdSet) (root : InstId) : IdSet :=
  let p := s.program
  reachable p.insts.size (fun i =>
    if unlocks.contains i then []
    else
      (nextInside p (s.flowOf root).dom (p.blockOf root) i).filter fun j => !seen.contains j)
    [root]

/-- Where the region of a root ends without an unlock. -/
def frontierOf (s : Subject) (unlocks region : IdSet) (root : InstId) : IdSet :=
  let p := s.program
  Std.TreeSet.ofList ((region.toList.filter fun i => !unlocks.contains i).flatMap
    (nextOutside p (s.flowOf root).dom (p.blockOf root)))

/-- Spread protection from the instructions of a stack.  An instruction whose guards do not imply
those of the start is passed over. -/
def spread (s : Subject) (implied : BlockId → Bool) (unlocks seen inside : IdSet)
    (stack : List InstId) : IdSet :=
  match stack with
  | [] => inside
  | i :: rest =>
    let b := s.program.blockOf i
    if _h : i < s.program.insts.size ∧ seen.contains i = false then
      if implied b then
        let found := region s unlocks seen i
        spread s implied unlocks (found.toList.foldl (·.insert ·) (seen.insert i)) (inside ∪ found)
          ((frontierOf s unlocks found i).toList.reverse ++ rest)
      else
        spread s implied unlocks (seen.insert i) inside
          (((s.program.block b).succs.filterMap s.program.firstInst).reverse ++ rest)
    else
      spread s implied unlocks seen inside rest
termination_by (Search.unseen s.program.insts.size seen, stack.length)
decreasing_by
  · apply Prod.Lex.left
    have := Search.unseen_insert _h.1 _h.2
    have := Search.unseen_foldl_insert_le s.program.insts.size
      (region s unlocks seen i).toList (seen.insert i)
    omega
  · apply Prod.Lex.left
    have := Search.unseen_insert _h.1 _h.2
    omega
  · apply Prod.Lex.right
    simp

/-- The loads, stores and calls that run with some locks when they are held from `root` on. -/
def protectedFrom (s : Subject) (t : LockSites) (root : InstId) (locks : IdSet) : IdSet :=
  let p := s.program
  let unlocks := unlocksOf s t locks
  let guards := s.guardsAt (Comparison.read p)
  let start := p.blockOf root
  let implied (b : BlockId) := b == start || Guard.implies (guards b) (guards start)
  (spread s implied unlocks ∅ ∅ [root]).filter fun i =>
    p.isInteresting i && !unlocks.contains i

/-- Record that some locks are held at some instructions. -/
def protect (l : Locksets) (is : IdSet) (locks : IdSet) : Locksets :=
  { l with held := is.foldl (·.addAllTo · locks) l.held }

/-- The locks held at every call of a function. -/
def atEntry (s : Subject) (l : Locksets) (f : FuncId) : IdSet :=
  match (s.callSites f).map (l.held[·]?) with
  | [] => ∅
  | first :: rest => (rest.foldl (fun u v => do return (← u) ∩ (← v)) first).getD ∅

/-- Find the locks held in a function. -/
def protectFunction (s : Subject) (l : Locksets) (f : FuncId) : Locksets :=
  let p := s.program
  let t := l.sites.getD f {}
  let entry := l.atEntry s f
  let starts := (if entry.isEmpty then [] else
      (((p.func f).entry.bind p.firstInst).map (·, entry)).toList) ++
    t.locks.toList.filterMap fun (i, locks) => (p.nextInst i).map (·, locks)
  starts.foldl (fun l (root, locks) => l.protect (protectedFrom s t root locks) locks) l

/-! ## Local mode -/

/-- The instructions of a function that run with a lock from its lock site on. -/
def localRegion (s : Subject) (f : FuncId) (site : InstId) (lock : ValueId) : IdSet :=
  let p := s.program
  let releases (i : InstId) := p.isUnlock i &&
    (p.lockPtr i).any fun v => s.pointers.mayAlias lock (p.stripCasts v)
  reachable p.insts.size (fun i =>
    if releases i then [] else nextInside p (s.flow f).dom (p.blockOf site) i) [site]

/-- Protect the accesses between the locks and unlocks of a function, those of its callees
included. -/
def protectLocally (s : Subject) (l : Locksets) (f : FuncId) : Locksets :=
  let p := s.program
  ((p.funcInsts f).filter p.isLock).foldl (fun l site =>
    match p.lockPtr site with
    | none => l
    | some v =>
      let lock := p.stripCasts v
      let found := localRegion s f site lock
      let callees := found.foldl (fun u i => u ∪ calleeAccesses s l i) ∅
      l.protect (found.filter (isAccess p) ∪ callees) {lock}) l

/-! ## The analysis -/

/-- Find the locks held at each instruction. -/
def analyze (s : Subject) : Locksets :=
  let protectIn := if s.config.localLocksets then protectLocally s else protectFunction s
  s.topDown.foldl (fun l c => (s.components.get c).members.foldl protectIn l)
    (s.bottomUp.foldl (summarise s) {})

/-- Note the recursive components that are summarised once. -/
def note (s : Subject) (log : Log) : Log :=
  s.bottomUp.foldl (fun log c => s.noteRecursion (s.components.get c) "lockset" log) log

/-- The locks known to be held at an instruction. -/
def of? (l : Locksets) (i : InstId) : Option IdSet := l.held[i]?

/-- Whether two instructions certainly hold a common lock. -/
def haveCommon (s : Subject) (l : Locksets) (i j : InstId) : Bool :=
  match l.of? i, l.of? j with
  | some a, some b => a.any fun x => b.any (s.pointers.mustAlias x)
  | _, _ => false

end Locksets

end DataRace
