import DataRace.Program.Basic

/-!
# DataRace.Program.Value

Walks from a value back to what it is made of.

An operand that is not an input of a phi is older than the result, so a walk
that passes no phi goes to ever smaller values.  The walks below follow an
operand only while it is older, which is what makes them end; in a program
made by the builder that is every operand they meet.
-/

namespace DataRace

namespace Program

/-- The operand of the cast that defines a value. -/
def castSource? (p : Program) (v : ValueId) : Option ValueId :=
  match p.defOp v with
  | some (.cast src) => some src
  | _ => none

/-- The operand of the cast or projection that defines a value. -/
def pointerSource? (p : Program) (v : ValueId) : Option ValueId :=
  match p.defOp v with
  | some (.cast src) => some src
  | some (.project base _ _) => some base
  | _ => none

/-- Follow `next` from `v` as long as it leads to an older value. -/
def followOlder (next : ValueId → Option ValueId) (v : ValueId) : ValueId :=
  match next v with
  | some src => if src < v then followOlder next src else v
  | none => v
termination_by v

/-- The value under every cast around `v`. -/
def stripCasts (p : Program) (v : ValueId) : ValueId := followOlder p.castSource? v

/-- The value under every cast and field projection around `v`. -/
def basePointer (p : Program) (v : ValueId) : ValueId := followOlder p.pointerSource? v

end Program

end DataRace
