import DataRace.Alias.Refinement
import DataRace.Partition.Escape
import DataRace.View.Parallel

/-!
# DataRace.View.Alias

Context-sensitive alias queries as plain data.
-/

namespace DataRace

instance : View Status := ⟨fun s => .text s.text⟩

/-- An answer, with contexts written by a function. -/
def Reached.viewWith (r : Reached) (text : Context → String) : Datum :=
  .record [("status", view r.status),
    ("pts", view (r.entries.toList.map fun (n, cs) => (n, cs.toList.map text)))]

namespace AliasScope

/-- The pairs of call strings for two instructions at two points; at most twelve are shown. -/
def viewPaths (x : AliasScope) (i : InstId) (q : Point) (j : InstId) (r : Point) : Datum :=
  let found := x.contextPairs i q j r
  let status := PathFailure.outcome found
  let pairs := found.toOption
  let shown := pairs.map fun l => (l.take 12).map fun (c, d) => (c.sitesText, d.sitesText)
  view (i, q, j, r, status, status == PathFailure.outcome (α := Unit) (.error .outOfBudget),
    pairs.map (·.length), shown)

/-- The first pairs of points under which accessing instructions may run in parallel. -/
def firstPoints (x : AliasScope) (ops : Operations) (n : Nat) :
    List (InstId × Point × InstId × Point) :=
  (ops.instPairs.flatMap fun (i, j) =>
    (x.par.parallelPoints x.subject.program i j).map fun (q, r) => (i, q, j, r)).take n

/-- The call strings for some pairs of points, after the outcome before any search. -/
def viewPathList (x : AliasScope) (asked : List (InstId × Point × InstId × Point)) : Datum :=
  .list (view PathFailure.initial :: asked.map fun (i, q, j, r) => x.viewPaths i q j r)

/-- Which accesses are ruled out for small partitions, and which pairs with a write are apart. -/
def viewRefinement (x : AliasScope) (ops : Operations) (m : Partitioning) : Refine Datum := do
  let p := x.subject.program
  let small := m.parts.filter (·.accesses.length ≤ 12)
  let asked := ops.ids.flatMap fun a => (x.par.pointsOf p (ops.get a).inst).flatMap fun q =>
    small.map fun part => (a, q, part)
  let out ← asked.filterM fun (a, q, part) => AliasRefinement.ruledOut x (ops.get a) q part.objs
  let pairs := (upperPairs ops.ids).filter fun (a, b) => m.isWrite a || m.isWrite b
  let apart ← pairs.filterM fun (a, b) => AliasRefinement.apart x (ops.get a) (ops.get b)
  return .record [("not_part", view (out.map fun (a, q, part) => (a, q, part.id))),
    ("not_alias", view apart), ("stats", view (← get).counts.text)]

end AliasScope

end DataRace
