import DataRace.Report.Warning

/-!
# DataRace.Report.CheckPlan

What a run-time checker has to look at.

Every access in a race is checked.  The accesses in a pair are numbered from 0
in the order of functions and instructions, so that the checker can watch each
pair of numbers.
-/

namespace DataRace

/-- The checks for the races of a report. -/
structure CheckPlan where
  /-- The instructions to check whenever they run. -/
  checked : IdSet
  /-- The numbers of the instructions in pairs. -/
  numbers : IdMap Nat
  /-- The pairs of numbers of each race. -/
  groups : List (List (Nat × Nat))
deriving Inhabited

namespace CheckPlan

/-- Number the accesses of a report. -/
def ofReport (p : Program) (r : RaceReport) : CheckPlan :=
  let paired : IdSet := Std.TreeSet.ofList (r.warnings.flatMap fun w =>
    w.pairs.flatMap fun (i, j) => [i, j])
  let order := (p.funcIds.flatMap p.funcInsts).filter paired.contains
  let numbers : IdMap Nat := order.zipIdx.foldl (fun m (i, n) => m.insert i n) ∅
  { checked := Std.TreeSet.ofList (r.warnings.flatMap (·.accesses))
    numbers
    groups := r.warnings.map fun w => w.pairs.filterMap fun (i, j) => do
      return (← numbers[i]?, ← numbers[j]?) }

/-- All pairs in the order of the races. -/
def pairs (c : CheckPlan) : List (Nat × Nat) := c.groups.flatten

/-- The size of the plan in three lines. -/
def text (c : CheckPlan) : String :=
  s!"{c.checked.size} instructions annotated for regular check.\n" ++
    s!"{c.numbers.size} instructions annotated with pair ids.\n" ++
    s!"{c.pairs.length} pairs in total"

/-- Note the races over budget, whose accesses are checked but not paired. -/
def note (r : RaceReport) (log : Log) : Log :=
  (r.warnings.filter (·.overBudget)).foldl (fun log w =>
    log.warn (s!"partition p{w.part} is over budget, its {w.accesses.length} accesses " ++
      "only get regular checks")) log

end CheckPlan

end DataRace
