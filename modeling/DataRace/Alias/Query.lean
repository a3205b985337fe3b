import DataRace.Alias.Context
import DataRace.PointsTo.Graph

/-!
# DataRace.Alias.Query

The questions of the context-sensitive alias analysis, in an order by which
their answers are kept.
-/

namespace DataRace

/-- What is asked about a node. -/
inductive Query.Kind where
  /-- The objects a pointer points to. -/
  | pointsTo
  /-- The pointers that an object flows to; with an offset, those to that field of it. -/
  | flowsTo (offset : Option Nat)
  /-- The pointers that point to what a pointer points to. -/
  | aliases
deriving DecidableEq, Inhabited

/-- A question about a node under a context. -/
structure Query where
  kind : Query.Kind
  node : NodeId
  ctx : Context
deriving DecidableEq, Inhabited

namespace Query

/-- The numbers by which queries are ordered. -/
def key (q : Query) : List Nat :=
  (match q.kind with
    | .pointsTo => [0, 0]
    | .flowsTo none => [1, 0]
    | .flowsTo (some k) => [2, k]
    | .aliases => [3, 0]) ++ q.node :: q.ctx.key

instance : Ord Query := ⟨compareOn key⟩

instance : Std.TransOrd Query := inferInstanceAs (Std.TransCmp (compareOn key))

theorem key_injective {a b : Query} (h : a.key = b.key) : a = b := by
  obtain ⟨ka, na, ca⟩ := a
  obtain ⟨kb, nb, cb⟩ := b
  have split : ka = kb ∧ na = nb ∧ ca.key = cb.key := by
    rcases ka with _ | (_ | k) | _ <;> rcases kb with _ | (_ | l) | _ <;> simp_all [key]
  obtain ⟨rfl, rfl, hc⟩ := split
  rw [Context.key_injective hc]

instance : Std.LawfulEqOrd Query where
  eq_of_compare h := key_injective (Std.LawfulEqOrd.eq_of_compare (α := List Nat) h)

end Query

end DataRace
