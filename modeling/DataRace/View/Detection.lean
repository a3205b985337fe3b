import DataRace.Detection
import DataRace.View.Parallel

/-!
# DataRace.View.Detection

The outcome of a detection as plain data.
-/

namespace DataRace

instance : View RaceWarning := ⟨fun w =>
  .record [("part", view w.part), ("objects", view w.objects), ("labels", view w.labels),
    ("loc", view w.loc), ("accesses", view w.accesses), ("over", view w.overBudget),
    ("pairs", view w.pairs)]⟩

instance : View CheckPlan := ⟨fun c =>
  .record [("text", view c.text), ("regular", view c.checked), ("ids", view c.numbers),
    ("num_ids", view c.numbers.size), ("groups", view c.groups), ("pairs", view c.pairs),
    ("num_pairs", view c.pairs.length)]⟩

/-- The counts of a detection, without times. -/
def Statistics.viewCounts (s : Statistics) : Datum :=
  .record [("accesses", view s.accesses), ("partitions", view s.partitions),
    ("spawn_sites", view s.spawnSites), ("hits", view s.cache.hits),
    ("misses", view s.cache.misses), ("refined", view s.refined), ("unrefined", view s.unrefined),
    ("out_of_budget", view s.outOfBudget), ("races", view s.races),
    ("pairs_after", view s.pairTable)]

/-- A question about a report. -/
inductive RaceQuestion where
  /-- Whether two instructions race. -/
  | between (i j : InstId)
  /-- Whether an instruction takes part in a race. -/
  | involves (i : InstId)
  /-- The partition of the race on an object. -/
  | object (o : ObjId)

/-- The answer to a question. -/
def RaceReport.answer (r : RaceReport) : RaceQuestion → Datum
  | .between i j => view (r.hasRace i j)
  | .involves i => view (r.involves i)
  | .object o => view ((r.warningFor? o).map (·.part))

/-- The outcome of a detection, with answers to questions about the report. -/
def Detection.viewAll (d : Detection) (questions : List RaceQuestion) : Datum :=
  .record [("report", view d.report.text), ("race_free", view d.report.warnings.isEmpty),
    ("len", view d.report.warnings.length), ("details", view d.report.details.isSome),
    ("warnings", view d.report.warnings), ("annotation", view d.plan),
    ("stats", d.stats.viewCounts),
    ("log", .record [("text", view d.log.text), ("truncated", view d.log.truncated),
      ("warnings", view d.log.warnings)]),
    ("extra", view (questions.map d.report.answer))]

end DataRace
