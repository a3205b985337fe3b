import DataRace.Lockset
import DataRace.Partition.Basic
import DataRace.Program.Text

/-!
# DataRace.Report.Warning

The races that are reported.

Every partition with an access left is a race.  Races are listed by the place
where their first object with a place is declared, those without a place last.
-/

namespace DataRace

/-- A race on a partition. -/
structure RaceWarning where
  part : PartId
  objects : List ObjId
  /-- The names of the objects. -/
  labels : List String
  /-- Where the first object with a place is declared. -/
  loc : Option Location
  /-- The instructions that access the partition, ascending. -/
  accesses : List InstId
  /-- The pairs of them that may race, the smaller one first. -/
  pairs : List (InstId × InstId)
  /-- The pairs are not complete. -/
  overBudget : Bool
deriving Inhabited

namespace RaceWarning

/-- The race on a partition. -/
def ofPartition (s : Subject) (ops : Operations) (p : Partition) : RaceWarning :=
  let objects := p.objs.toList
  let inst (a : AccessId) := (ops.get a).inst
  let accesses : IdSet := Std.TreeSet.ofList (p.live.map inst)
  let pairs : PairSet := Std.TreeSet.ofList
    (p.risky.pairs.toList.map fun (a, b) => (min (inst a) (inst b), max (inst a) (inst b)))
    lexOrd.compare
  { part := p.id
    objects
    labels := objects.map fun o => (s.pointers.obj o).name
    loc := objects.findSome? fun o => (s.pointers.obj o).loc
    accesses := accesses.toList
    pairs := pairs.toList
    overBudget := p.risky.isOverBudget }

/-- Whether two instructions are reported to race.  A race over budget covers all its accesses. -/
def covers (w : RaceWarning) (i j : InstId) : Bool :=
  if w.overBudget then w.accesses.contains i && w.accesses.contains j
  else w.pairs.contains (min i j, max i j)

/-- Whether an instruction takes part in the race. -/
def involves (w : RaceWarning) (i : InstId) : Bool := w.accesses.contains i

/-- The order of races: by place, those without a place last, then by partition. -/
def compare (a b : RaceWarning) : Ordering :=
  match a.loc, b.loc with
  | some x, some y => (x.compare y).then (Ord.compare a.part b.part)
  | some _, none => .lt
  | none, some _ => .gt
  | none, none => Ord.compare a.part b.part

/-- The locks held at an instruction with what they may be, one line each. -/
def lockLines (s : Subject) (locks : Locksets) (i : InstId) : List String :=
  let names (l : ValueId) := (s.pointers.of l).toList.map fun o => (s.pointers.obj o).name
  match (locks.of? i).map (·.toList) with
  | none | some [] => ["      empty lock set"]
  | some ls => ls.map fun l => "      Locked --- " ++ s.program.valueName l ++ " --> \x7b " ++
      " ".intercalate (names l) ++ " \x7d"

/-- The race in detail, the `n`-th of its report. -/
def lines (w : RaceWarning) (s : Subject) (locks : Locksets) (n : Nat) : List String :=
  [s!"Race #{n} on partition p{w.part}" ++
      match w.loc with
      | some l => " declared at " ++ l.text
      | none => "",
    "  objects: \x7b " ++ " ".intercalate w.labels ++ " \x7d",
    s!"  dereferenced at {w.accesses.length} places:"] ++
  (w.accesses.flatMap fun i => ("    " ++ s.program.describe i) :: lockLines s locks i) ++
  [s!"  {w.pairs.length} risky pairs" ++ if w.overBudget then " (over budget)" else ""]

end RaceWarning

/-- All races of a program. -/
structure RaceReport where
  warnings : List RaceWarning
  /-- The races in detail, when asked for. -/
  details : Option String := none
deriving Inhabited

namespace RaceReport

/-- The races that are left in the partitions. -/
def collect (s : Subject) (ops : Operations) (m : Partitioning) : RaceReport where
  warnings := ((m.parts.filter fun p => !p.isPruned).map (.ofPartition s ops)).mergeSort
    fun a b => (a.compare b).isLE

/-- The report with every race in detail. -/
def withDetails (r : RaceReport) (s : Subject) (locks : Locksets) : RaceReport :=
  let lines := r.warnings.zipIdx.flatMap fun (w, n) => w.lines s locks (n + 1)
  { r with details := some (String.join (lines.map (· ++ "\n"))) }

/-- Whether two instructions are reported to race. -/
def hasRace (r : RaceReport) (i j : InstId) : Bool := r.warnings.any (·.covers i j)

/-- Whether an instruction takes part in a race. -/
def involves (r : RaceReport) (i : InstId) : Bool := r.warnings.any (·.involves i)

/-- The race on an object. -/
def warningFor? (r : RaceReport) (o : ObjId) : Option RaceWarning :=
  r.warnings.find? (·.objects.contains o)

/-- The text of a report: the details, if any, and the number of races. -/
def text (r : RaceReport) : String :=
  r.details.getD "" ++
    match r.warnings.length with
    | 0 => "No race found."
    | 1 => "1 race in total"
    | n => s!"{n} races in total"

end RaceReport

end DataRace
