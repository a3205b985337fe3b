import DataRace.Collection
import DataRace.Parallel.Point
import DataRace.Program.Text

/-!
# DataRace.Alias.Context

Calling contexts.

A context is a stack of call sites, the innermost last, that may rest on an
abstract root: a point that stands for every stack inside the code the point
reaches.  Without a root the stack is a plain call string, and an empty one
may return anywhere.
-/

namespace DataRace

/-- A call string, possibly on top of an abstract root. -/
structure Context where
  root : Option Point := none
  /-- The call sites, from the outermost to the innermost. -/
  sites : List InstId := []
deriving DecidableEq, Inhabited

namespace Context

/-- The context of what exists once in a run. -/
def global : Context := {}

/-- The context of code reached from a point. -/
def rooted (p : Point) : Context := { root := some p }

/-- The numbers by which contexts are ordered: unrooted ones first, then by root, then by the
sites from the outermost on. -/
def key (c : Context) : List Nat :=
  match c.root with
  | none => 0 :: c.sites
  | some p => 1 :: p.spawn :: p.side.rank :: c.sites

instance : Ord Context := ⟨compareOn key⟩

instance : Std.TransOrd Context := inferInstanceAs (Std.TransCmp (compareOn key))

theorem key_injective {a b : Context} (h : a.key = b.key) : a = b := by
  obtain ⟨ra, sa⟩ := a
  obtain ⟨rb, sb⟩ := b
  cases ra with
  | none => cases rb <;> simp_all [key]
  | some p =>
    cases rb with
    | none => simp [key] at h
    | some q =>
      obtain ⟨ps, pt⟩ := p
      obtain ⟨qs, qt⟩ := q
      simp only [key, List.cons.injEq] at h
      obtain ⟨-, rfl, ht, rfl⟩ := h
      cases pt <;> cases qt <;> simp_all [Side.rank]

instance : Std.LawfulEqOrd Context where
  eq_of_compare h := key_injective (Std.LawfulEqOrd.eq_of_compare (α := List Nat) h)

/-- Whether the call site is already on the stack. -/
def onStack (c : Context) (site : InstId) : Bool := c.sites.contains site

/-- Enter a callee; the root stays as it is. -/
def push (c : Context) (site : InstId) : Context := { c with sites := c.sites ++ [site] }

/-- What leaving an abstract root depends on. -/
structure Roots where
  /-- The site is the one the point is rooted at. -/
  isRoot : Point → InstId → Bool
  /-- Returning through the site stays in the code of the point. -/
  staysInside : Point → InstId → Bool

/-- Return through a call site; `none` when the context cannot have come from there. -/
def pop (c : Context) (roots : Roots) (site : InstId) : Option Context :=
  match c.sites.getLast? with
  | some top => if top = site then some { c with sites := c.sites.dropLast } else none
  | none =>
    match c.root with
    | none => some c
    | some p =>
      if roots.isRoot p site then some { c with root := none }
      else if roots.staysInside p site then some c
      else none

/-- Whether the shorter call string is the innermost part of the longer. -/
def suffixMatches (a b : List InstId) : Bool :=
  let n := min a.length b.length
  a.drop (a.length - n) == b.drop (b.length - n)

/-- Whether two contexts may be the same at run time. -/
def compatible (a b : Context) : Bool :=
  suffixMatches a.sites b.sites &&
    match a.root, b.root with
    | some p, some q => p = q
    | _, _ => true

/-- The number of stack entries, the root among them. -/
def depth (c : Context) : Nat := c.sites.length + if c.root.isSome then 1 else 0

/-- The call string in brackets. -/
def sitesText (c : Context) : String := "[" ++ " -> ".intercalate (c.sites.map (handle "i")) ++ "]"

/-- The root in angle brackets before the call string. -/
def text (c : Context) : String :=
  (match c.root with
    | some p => "<" ++ p.side.text ++ " " ++ handle "i" p.spawn ++ "> "
    | none => "<> ") ++ c.sitesText

end Context

end DataRace
