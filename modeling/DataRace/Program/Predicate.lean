/-!
# DataRace.Program.Predicate

Integer comparison predicates on 64-bit words, signed and unsigned.

* `swap` is the predicate after the operands are swapped;
* `inverse` is its negation;
* `eval` decides it on two words.
-/

namespace DataRace

/-- An integer comparison predicate.  The declaration order is the order in which predicates
sort. -/
inductive Predicate where
  | eq
  | ne
  | slt
  | sle
  | sgt
  | sge
  | ult
  | ule
  | ugt
  | uge
deriving DecidableEq, Inhabited

namespace Predicate

/-- The predicate that holds of the swapped operands. -/
def swap : Predicate → Predicate
  | eq => eq
  | ne => ne
  | slt => sgt
  | sle => sge
  | sgt => slt
  | sge => sle
  | ult => ugt
  | ule => uge
  | ugt => ult
  | uge => ule

/-- The predicate that holds exactly when this one does not. -/
def inverse : Predicate → Predicate
  | eq => ne
  | ne => eq
  | slt => sge
  | sle => sgt
  | sgt => sle
  | sge => slt
  | ult => uge
  | ule => ugt
  | ugt => ule
  | uge => ult

/-- The truth of the predicate on two words; the unsigned predicates read the words as unsigned. -/
def eval : Predicate → Int64 → Int64 → Bool
  | eq, l, r => l == r
  | ne, l, r => l != r
  | slt, l, r => l < r
  | sle, l, r => l ≤ r
  | sgt, l, r => r < l
  | sge, l, r => r ≤ l
  | ult, l, r => l.toUInt64 < r.toUInt64
  | ule, l, r => l.toUInt64 ≤ r.toUInt64
  | ugt, l, r => r.toUInt64 < l.toUInt64
  | uge, l, r => r.toUInt64 ≤ l.toUInt64

/-- The signed predicate of the same shape. -/
def stripSign : Predicate → Predicate
  | ult => slt
  | ule => sle
  | ugt => sgt
  | uge => sge
  | p => p

/-- Equality up to signedness, so that `slt` and `ult` agree. -/
def sameUpToSign (p q : Predicate) : Bool := p.stripSign = q.stripSign

/-- The mnemonic in reports. -/
def mnemonic : Predicate → String
  | eq => "eq"
  | ne => "ne"
  | slt => "slt"
  | sle => "sle"
  | sgt => "sgt"
  | sge => "sge"
  | ult => "ult"
  | ule => "ule"
  | ugt => "ugt"
  | uge => "uge"

/-- All predicates in declaration order. -/
def all : List Predicate := [eq, ne, slt, sle, sgt, sge, ult, ule, ugt, uge]

/-- Position in the declaration order. -/
def rank : Predicate → Nat
  | eq => 0
  | ne => 1
  | slt => 2
  | sle => 3
  | sgt => 4
  | sge => 5
  | ult => 6
  | ule => 7
  | ugt => 8
  | uge => 9

/-- Read a mnemonic. -/
def ofMnemonic? (s : String) : Option Predicate := all.find? (·.mnemonic == s)

@[simp] theorem swap_swap (p : Predicate) : p.swap.swap = p := by cases p <;> rfl

@[simp] theorem inverse_inverse (p : Predicate) : p.inverse.inverse = p := by cases p <;> rfl

/-- Swapping the predicate undoes a swap of the operands. -/
theorem eval_swap (p : Predicate) (l r : Int64) : p.swap.eval r l = p.eval l r := by
  cases p <;> simp [swap, eval, Bool.beq_comm, bne]

/-- The inverse holds exactly when the predicate does not. -/
theorem eval_inverse (p : Predicate) (l r : Int64) : p.inverse.eval l r = !p.eval l r := by
  cases p <;> simp [inverse, eval, bne, ← decide_not]

end Predicate

end DataRace
