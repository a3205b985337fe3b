import Std.Data.TreeMap.Lemmas
import Std.Data.TreeMap.AdditionalOperations
import Std.Data.TreeSet.Lemmas
import Std.Data.TreeSet.AdditionalOperations

/-!
# DataRace.Collection

Sets and maps over handles.  They are kept in ascending order, and every
answer that lists one lists it in that order.
-/

namespace DataRace

/-- A set of handles. -/
abbrev IdSet := Std.TreeSet Nat

/-- A map from handles. -/
abbrev IdMap (α : Type) := Std.TreeMap Nat α

/-- A set of pairs of handles, ordered by the first component, then the second. -/
abbrev PairSet := Std.TreeSet (Nat × Nat) lexOrd.compare

/-- The pairs `(a, b)` with `a` no later than `b` in the list, row by row. -/
def upperPairs : List α → List (α × α)
  | [] => []
  | a :: as => (a :: as).map (a, ·) ++ upperPairs as

/-- The sum of the numbers. -/
def total : List Nat → Nat
  | [] => 0
  | n :: ns => n + total ns

/-- Add a handle to the set a map holds under a key. -/
def IdMap.addTo (m : IdMap IdSet) (key x : Nat) : IdMap IdSet :=
  m.insert key ((m.getD key ∅).insert x)

/-- Add handles to the set a map holds under a key. -/
def IdMap.addAllTo (m : IdMap IdSet) (key : Nat) (xs : IdSet) : IdMap IdSet :=
  m.insert key (m.getD key ∅ ∪ xs)

end DataRace
