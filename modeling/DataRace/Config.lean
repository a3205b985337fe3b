import DataRace.Error
import DataRace.Log

/-!
# DataRace.Config

The switches and budgets of a detection.
-/

namespace DataRace

/-- How calling contexts are told apart by the alias refinement. -/
inductive ContextMode where
  /-- Call strings from the entry of the program. -/
  | standard
  /-- Call strings rooted at an abstract spawn-site context. -/
  | hybrid
  /-- No context-sensitive refinement. -/
  | disabled
deriving DecidableEq, Inhabited

/-- The settings of a detection. -/
structure Config where
  /-- Risky pairs kept per partition. -/
  riskyPairBudget : Nat := 3000
  /-- Keep collecting risky pairs past the budget. -/
  allRiskyPairs : Bool := false
  /-- Steps one alias query may spend. -/
  aliasBudget : Int := 1000
  /-- Longest enumerated context path. -/
  maxPathLength : Nat := 100
  /-- Most enumerated pairs of context paths. -/
  maxPathPairs : Nat := 1000
  contextMode : ContextMode := .hybrid
  /-- Carry locks only inside the function that acquires them. -/
  localLocksets : Bool := false
  /-- A projection with a variable index touches every field. -/
  variableIndex : Bool := true
  /-- A call to `free` writes the freed object. -/
  freeWrites : Bool := false
  annotate : Bool := false
  detail : Bool := false
  collectStats : Bool := false
  logLevel : Level := .off
  /-- The largest diagnostics text in bytes. -/
  maxLogSize : Nat := 4 * 1024 * 1024

instance : Inhabited Config := ⟨{}⟩

namespace Config

/-- Settings for annotated results: every risky pair is kept whatever the budget. -/
def annotating : Config := { allRiskyPairs := true, annotate := true }

/-- Switch detailed reports; switching them on raises the log level to `info` at least. -/
def withDetail (c : Config) (on : Bool) : Config :=
  { c with
    detail := on
    logLevel := if on && c.logLevel.rank < Level.info.rank then .info else c.logLevel }

/-- Refuse settings no analysis can work with. -/
def validate (c : Config) : Except Error Unit :=
  if c.riskyPairBudget = 0 then
    .error (.invalidConfig "risky pair budget must be positive")
  else if c.aliasBudget ≤ 0 then
    .error (.invalidConfig "alias query budget must be positive")
  else if c.maxPathLength = 0 ∨ c.maxPathPairs = 0 then
    .error (.invalidConfig "context path limits must be positive")
  else
    .ok ()

/-- The empty log that the settings ask for. -/
def emptyLog (c : Config) : Log := { level := c.logLevel, maxSize := c.maxLogSize }

end Config

end DataRace
