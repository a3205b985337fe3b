import DataRace.Collection
import DataRace.Error
import DataRace.Text.Decimal
import DataRace.Text.Line

/-!
# DataRace.Statistics

Counters and phase times of a detection, and the table they are shown in.

Times are whole nanoseconds and are shown as milliseconds with three
decimals; rates have one.
-/

namespace DataRace

/-- The timed phases of a detection, in the order they run. -/
inductive Phase where
  | opCollection
  | memPart
  | escape
  | mhp
  | lockset
  | barrier
  | furtherRefinement
  | csRefinement
deriving DecidableEq, Inhabited

namespace Phase

/-- All phases in the order they run. -/
def all : List Phase :=
  [opCollection, memPart, escape, mhp, lockset, barrier, furtherRefinement, csRefinement]

/-- The name in the table. -/
def name : Phase → String
  | opCollection => "OpCollection"
  | memPart => "MemPart"
  | escape => "Escape"
  | mhp => "Mhp"
  | lockset => "Lockset"
  | barrier => "Barrier"
  | furtherRefinement => "FurtherRefinement"
  | csRefinement => "CsRefinement"

end Phase

/-- Hits and misses of a cache. -/
structure CacheCounts where
  hits : Nat := 0
  misses : Nat := 0
deriving DecidableEq, Inhabited

namespace CacheCounts

/-- The sum of two counts, each of them a 64-bit word. -/
def merge (a b : CacheCounts) : Except Error CacheCounts :=
  if a.hits + b.hits < UInt64.size ∧ a.misses + b.misses < UInt64.size then
    .ok ⟨a.hits + b.hits, a.misses + b.misses⟩
  else
    .error .outOfRange

/-- All look-ups, as a 64-bit word. -/
def lookups (c : CacheCounts) : Except Error Nat :=
  if c.hits + c.misses < UInt64.size then .ok (c.hits + c.misses) else .error .outOfRange

def text (c : CacheCounts) : String := s!"{c.hits} hits, {c.misses} misses"

/-- Hits in percent of all look-ups. -/
def hitRate (c : CacheCounts) : Float :=
  if c.hits + c.misses = 0 then
    0.0
  else
    Float.ofNat c.hits / Float.ofNat (c.hits + c.misses) * 100.0

end CacheCounts

/-- The statistics of one detection. -/
structure Statistics where
  /-- Spans of time in nanoseconds, each counted towards its phase. -/
  spans : List (Phase × Nat) := []
  /-- Risky pairs alive after a phase; of two entries the later one counts. -/
  pairCounts : List (Phase × Nat) := []
  accesses : Nat := 0
  partitions : Nat := 0
  spawnSites : Nat := 0
  cache : CacheCounts := {}
  refined : Nat := 0
  unrefined : Nat := 0
  outOfBudget : Nat := 0
  races : Nat := 0
deriving Inhabited

namespace Statistics

/-- The time of a phase in nanoseconds. -/
def time (s : Statistics) (p : Phase) : Nat :=
  total ((s.spans.filter (·.1 = p)).map (·.2))

/-- The time of all phases in nanoseconds. -/
def totalTime (s : Statistics) : Nat := total (s.spans.map (·.2))

/-- Note the number of risky pairs left after a phase. -/
def recordPairs (s : Statistics) (p : Phase) (n : Nat) : Statistics :=
  { s with pairCounts := s.pairCounts ++ [(p, n)] }

/-- The risky pairs left after a phase. -/
def pairsAfter (s : Statistics) (p : Phase) : Option Nat :=
  (s.pairCounts.reverse.find? (·.1 = p)).map (·.2)

/-- The recorded pair counts in the order of the phases. -/
def pairTable (s : Statistics) : List (Phase × Nat) :=
  Phase.all.filterMap fun p => (s.pairsAfter p).map (p, ·)

/-- Nanoseconds as milliseconds, whole seconds and the rest converted apart. -/
def milliseconds (ns : Nat) : Float :=
  (Float.ofNat (ns / 1000000000) + Float.ofNat (ns % 1000000000) / 1000000000.0) * 1000.0

/-- The row of a phase. -/
def phaseRow (s : Statistics) (p : Phase) : String :=
  Text.padRight 18 p.name ++ " " ++
  Text.padLeft 10 (Text.fixed 3 (milliseconds (s.time p))) ++ "ms" ++
    match s.pairsAfter p with
    | some n => "  " ++ Text.padLeft 8 (toString n) ++ " pairs"
    | none => ""

/-- The table of all statistics. -/
def text (s : Statistics) : String :=
  "\n".intercalate <|
    ["=== Race Detection Statistics ===",
      s!"Accesses: {s.accesses}",
      s!"Partitions: {s.partitions}",
      s!"Spawn Sites: {s.spawnSites}",
      "",
      "--- Phases ---"] ++
    Phase.all.map s.phaseRow ++
    ["",
      "--- Context-Sensitive Refinement ---",
      s!"Refined: {s.refined}",
      s!"Unrefined: {s.unrefined}",
      s!"Out of budget: {s.outOfBudget}",
      "Cache: " ++ s.cache.text ++ " (" ++ Text.fixed 1 s.cache.hitRate ++ "%)",
      "",
      s!"Races: {s.races}"]

end Statistics

end DataRace
