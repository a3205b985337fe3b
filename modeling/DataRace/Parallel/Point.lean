import DataRace.Program.Instruction

/-!
# DataRace.Parallel.Point

The two sides of a fork, and a fork site together with a side.
-/

namespace DataRace

/-- How code relates to a fork: not reached, reached on the forking thread, or reached on the
forked one. -/
inductive Side where
  | not
  | trunk
  | branch
deriving DecidableEq, Inhabited

namespace Side

/-- Position in the order of sides. -/
def rank : Side → Nat
  | not => 0
  | trunk => 1
  | branch => 2

def text : Side → String
  | not => "not"
  | trunk => "trunk"
  | branch => "branch"

/-- All sides in order. -/
def all : List Side := [not, trunk, branch]

/-- Whether the two are different sides of one fork, so that they may run at the same time. -/
def opposite : Side → Side → Bool
  | trunk, branch | branch, trunk => true
  | _, _ => false

end Side

/-- Code on one side of a spawn or parallel loop. -/
structure Point where
  spawn : InstId
  side : Side
deriving DecidableEq, Inhabited

/-- The code on the forking thread after a fork. -/
abbrev Point.trunk (s : InstId) : Point := ⟨s, .trunk⟩

/-- The code on the forked thread. -/
abbrev Point.branch (s : InstId) : Point := ⟨s, .branch⟩

end DataRace
