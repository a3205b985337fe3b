import DataRace.Collection

/-!
# DataRace.Flow.Search

Which nodes of a finite graph can be reached.

Nodes are the numbers below a bound.  The search keeps a stack of nodes that
are seen but not yet followed; each step takes one off, and a node enters the
stack only when it is first seen, so the unseen nodes and the stack together
shrink at every step.
-/

namespace DataRace

namespace Search

/-- The number of nodes not yet seen. -/
def unseen (n : Nat) (seen : IdSet) : Nat := (List.range n).countP fun k => !seen.contains k

/-- Mark the new nodes of a list and put them on the stack. -/
def discover (n : Nat) : List Nat → IdSet → List Nat → IdSet × List Nat
  | [], seen, stack => (seen, stack)
  | y :: ys, seen, stack =>
    if y < n ∧ seen.contains y = false then
      discover n ys (seen.insert y) (y :: stack)
    else
      discover n ys seen stack

theorem unseen_insert_of_le {n y : Nat} (seen : IdSet) (h : n ≤ y) :
    unseen n (seen.insert y) = unseen n seen := by
  unfold unseen
  apply List.countP_congr
  intro k hk
  have : k < n := List.mem_range.1 hk
  have : y ≠ k := by omega
  simp [Std.TreeSet.contains_insert, this]

/-- Seeing a new node leaves one fewer unseen. -/
theorem unseen_insert {n y : Nat} {seen : IdSet} (h : y < n) (hy : seen.contains y = false) :
    unseen n (seen.insert y) + 1 = unseen n seen := by
  induction n with
  | zero => omega
  | succ n ih =>
    have step (s : IdSet) : unseen (n + 1) s = unseen n s + if s.contains n then 0 else 1 := by
      rw [unseen, List.range_succ, List.countP_append, ← unseen]
      cases h : s.contains n <;> simp [h]
    rw [step, step]
    by_cases hn : y = n
    · subst hn
      rw [unseen_insert_of_le seen (Nat.le_refl y)]
      simp [hy]
    · have := ih (by omega)
      have : (seen.insert y).contains n = seen.contains n := by
        simp [Std.TreeSet.contains_insert, hn]
      rw [this]
      omega

/-- Discovering moves nodes from the unseen ones to the stack. -/
theorem unseen_discover (n : Nat) (ys : List Nat) (seen : IdSet) (stack : List Nat) :
    unseen n (discover n ys seen stack).1 + (discover n ys seen stack).2.length =
      unseen n seen + stack.length := by
  induction ys generalizing seen stack with
  | nil => rfl
  | cons y ys ih =>
    unfold discover
    split
    · rename_i h
      have := unseen_insert h.1 h.2
      rw [ih]
      simp only [List.length_cons]
      omega
    · exact ih seen stack

/-- Seeing a node never leaves more unseen. -/
theorem unseen_insert_le (n y : Nat) (seen : IdSet) : unseen n (seen.insert y) ≤ unseen n seen := by
  by_cases h : y < n
  · cases hy : seen.contains y with
    | false => have := unseen_insert h hy; omega
    | true =>
      apply Nat.le_of_eq
      apply List.countP_congr
      intro k _
      by_cases hk : y = k
      · subst hk; simp [Std.TreeSet.contains_insert, hy]
      · simp [Std.TreeSet.contains_insert, hk]
  · exact Nat.le_of_eq (unseen_insert_of_le seen (by omega))

/-- Seeing more nodes never leaves more unseen. -/
theorem unseen_foldl_insert_le (n : Nat) (xs : List Nat) (seen : IdSet) :
    unseen n (xs.foldl (·.insert ·) seen) ≤ unseen n seen := by
  induction xs generalizing seen with
  | nil => exact Nat.le_refl _
  | cons x xs ih => exact Nat.le_trans (ih (seen.insert x)) (unseen_insert_le n x seen)

/-- Follow the nodes of the stack until it is empty. -/
def follow (n : Nat) (next : Nat → List Nat) (seen : IdSet) (stack : List Nat) : IdSet :=
  match stack with
  | [] => seen
  | x :: rest =>
    follow n next (discover n (next x) seen rest).1 (discover n (next x) seen rest).2
termination_by unseen n seen + stack.length
decreasing_by
  rw [unseen_discover]
  simp

/-- Take the nodes of a stack in turn, each at most once: `visit` changes a state and answers the
nodes to take before the rest of the stack, the last of them first. -/
def explore (n : Nat) (visit : σ → Nat → σ × List Nat) (seen : IdSet) (stack : List Nat)
    (state : σ) : σ :=
  match stack with
  | [] => state
  | x :: rest =>
    if _h : x < n ∧ seen.contains x = false then
      explore n visit (seen.insert x) ((visit state x).2.reverse ++ rest) (visit state x).1
    else
      explore n visit seen rest state
termination_by (unseen n seen, stack.length)
decreasing_by
  · have := unseen_insert _h.1 _h.2
    exact Prod.Lex.left _ _ (by omega)
  · exact Prod.Lex.right _ (by simp)

/-- Depth-first search from `x`, at most `depth` deep: a node is listed when it is first seen, then
the nodes after it in turn. -/
def list (next : Nat → List Nat) : Nat → IdSet × List Nat → Nat → IdSet × List Nat
  | 0, s, _ => s
  | depth + 1, (seen, out), x =>
    if seen.contains x then
      (seen, out)
    else
      (next x).foldl (list next depth) (seen.insert x, out ++ [x])

/-- Depth-first search from `x`, at most `depth` deep: a node is marked when it is first seen, and
put in front of the nodes left before it when all nodes after it are left. -/
def leave (next : Nat → List Nat) : Nat → IdSet × List Nat → Nat → IdSet × List Nat
  | 0, s, _ => s
  | depth + 1, (seen, out), x =>
    if seen.contains x then
      (seen, out)
    else
      let (seen, out) := (next x).foldl (leave next depth) (seen.insert x, out)
      (seen, x :: out)

end Search

/-- The nodes below `n` reachable from the start nodes, these included. -/
def reachable (n : Nat) (next : Nat → List Nat) (start : List Nat) : IdSet :=
  Search.follow n next (Search.discover n start ∅ []).1 (Search.discover n start ∅ []).2

/-- The nodes of a graph of `n` nodes in the order in which a depth-first search from `x` enters
them. -/
def enteringOrder (n : Nat) (next : Nat → List Nat) (x : Nat) : List Nat :=
  (Search.list next (n + 1) (∅, []) x).2

/-- The nodes of a graph of `n` nodes against the order in which a depth-first search from `x`
leaves them. -/
def reversePostorder (n : Nat) (next : Nat → List Nat) (x : Nat) : List Nat :=
  (Search.leave next (n + 1) (∅, []) x).2

end DataRace
