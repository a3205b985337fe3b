import DataRace.Alias.Reached
import DataRace.Statistics

/-!
# DataRace.Alias.Cache

Answers of earlier queries by key.

A look-up that finds a finished entry is a hit, one that finds nothing or a
fresh entry a miss; one that meets a query still in process counts as neither.
-/

namespace DataRace

/-- Answers by key, with the look-ups counted. -/
structure Cache (κ : Type) [Ord κ] where
  entries : Std.TreeMap κ Reached := ∅
  counts : CacheCounts := {}

namespace Cache

variable {κ : Type} [Ord κ]

instance : Inhabited (Cache κ) := ⟨{}⟩

/-- The entry of a key, with the look-up counted. -/
def lookup (c : Cache κ) (k : κ) : Option Reached × Cache κ :=
  match c.entries[k]? with
  | none => (none, { c with counts.misses := c.counts.misses + 1 })
  | some r =>
    match r.status with
    | .inProcess => (some r, c)
    | .fresh => (some r, { c with counts.misses := c.counts.misses + 1 })
    | _ => (some r, { c with counts.hits := c.counts.hits + 1 })

/-- The status of a key; fresh when there is no entry. -/
def status (c : Cache κ) (k : κ) : Status := ((c.entries[k]?).map (·.status)).getD .fresh

/-- Change the status of a key; an absent entry is made empty. -/
def setStatus (c : Cache κ) (k : κ) (s : Status) : Cache κ :=
  { c with entries := c.entries.insert k { (c.entries.getD k ∅) with status := s } }

/-- Replace the entry of a key. -/
def store (c : Cache κ) (k : κ) (r : Reached) : Cache κ :=
  { c with entries := c.entries.insert k r }

def size (c : Cache κ) : Nat := c.entries.size

end Cache

end DataRace
