import DataRace.Proofs.Call.Component
import DataRace.Proofs.Program.Script

/-!
# DataRace.Proofs.Call.Visits

The order in which analyses go through a program.

The components of a call graph are the classes of functions that reach each
other, and a call that leaves a component leads to one with a smaller number.
So an analysis that goes through the live components by ascending number has
dealt with the live callees of each when it gets to it, and by descending
number with the live callers.

* `Components.Sorts` says what the components are, `ofGraph_sorts` that they
  are that for every call graph;
* `Components.Calls.lt` — a component that calls another one comes later;
* `Subject.components_visited_in_order` — both orders visit every live component once, after those
  its summary is made of.
-/

namespace DataRace

open Std Relation

/-! ## components sort the functions -/

namespace Components

/-- The components of a call graph are the classes of functions that reach each other. -/
structure Sorts (p : Program) (g : CallGraph) (cs : Components) : Prop where
  /-- The functions of components are the defined ones. -/
  exists_iff : ∀ {f}, (∃ k, cs.of? f = some k) ↔ (p.func f).isDeclaration = false
  /-- A function is a member of its component and of no other one. -/
  of?_iff : ∀ {f k}, cs.of? f = some k ↔ k < cs.list.size ∧ f ∈ (cs.get k).members
  /-- Two functions share a component exactly if they reach each other. -/
  same_iff : ∀ {f h k}, cs.of? f = some k →
    (cs.of? h = some k ↔ (p.func h).isDeclaration = false ∧ g.Reaches f h ∧ g.Reaches h f)
  ascending : ∀ {k}, (cs.get k).members.Pairwise (· < ·)
  /-- The representative is the smallest member. -/
  smallest : ∀ {k}, k < cs.list.size → (cs.get k).members.head? = some (cs.get k).rep
  recursive_iff : ∀ {k}, k < cs.list.size → ((cs.get k).recursive = true ↔
    (cs.get k).members.length > 1 ∨
      ∃ e ∈ g.edges, e.caller ∈ (cs.get k).members ∧ e.callee = e.caller)
  /-- A component is recursive exactly if some member leads back to itself. -/
  cyclic_iff : ∀ {k}, k < cs.list.size → ((cs.get k).recursive = true ↔
    ∃ f ∈ (cs.get k).members, TransGen (fun a b => ∃ e ∈ g.edges, e.caller = a ∧ e.callee = b) f f)

/-- A member of one component calls or starts a member of another one. -/
def Calls (g : CallGraph) (cs : Components) (k l : ComponentId) : Prop :=
  k ≠ l ∧ ∃ e ∈ g.edges, cs.of? e.caller = some k ∧ cs.of? e.callee = some l

variable {p : Program} {g : CallGraph} {v : FuncId} {k l : Nat}

theorem ascending_members {cs : Components} (h : cs.Lists p g) :
    (cs.get k).members.Pairwise (· < ·) := by
  by_cases hk : k < cs.list.size
  · exact (h.classes hk).ascending
  · rw [get, Array.getD, dif_neg hk]
    exact List.Pairwise.nil

/-- **Components are the classes** of functions that reach each other. -/
theorem ofGraph_sorts (hg : Defined p g) : (ofGraph p g).Sorts p g :=
  have ⟨h, hall⟩ := ComponentSearch.ofGraph_lists hg
  { exists_iff := ⟨fun ⟨_, hk⟩ => h.defined hk, hall _⟩
    of?_iff := h.of?_iff
    same_iff := h.of?_iff_reaches
    ascending := ascending_members h
    smallest := fun hk => (h.classes hk).smallest
    recursive_iff := fun hk => (h.classes hk).recursive_iff
    cyclic_iff := fun hk => (h.classes hk).cyclic_iff hg }

theorem mem_recursiveFunctions {cs : Components} {f : Nat} : f ∈ cs.recursiveFunctions ↔
    ∃ k < cs.list.size, (cs.get k).recursive = true ∧ f ∈ (cs.get k).members := by
  have hfold (xs : List Component) (u : IdSet) : f ∈ xs.foldl (fun s c =>
      if c.recursive then c.members.foldl (·.insert ·) s else s) u ↔
        f ∈ u ∨ ∃ c ∈ xs, c.recursive = true ∧ f ∈ c.members := by
    induction xs generalizing u with
    | nil => simp
    | cons c xs ih =>
      rw [List.foldl_cons, ih]
      split
      · next hrec => simp [IdSet.mem_foldl_insert, hrec, or_assoc]
      · next hrec => simp [hrec]
  rw [recursiveFunctions, ← Array.foldl_toList, hfold]
  constructor
  · rintro (hnone | ⟨c, hc, hrec, hf⟩)
    · exact absurd hnone TreeSet.not_mem_emptyc
    · obtain ⟨k, hk, rfl⟩ := Array.mem_iff_getElem.1 (Array.mem_toList_iff.1 hc)
      exact ⟨k, hk, get_eq_getElem hk ▸ hrec, get_eq_getElem hk ▸ hf⟩
  · rintro ⟨k, hk, hrec, hf⟩
    rw [get_eq_getElem hk] at hrec hf
    exact .inr ⟨cs.list[k], Array.mem_toList_iff.2 (Array.getElem_mem hk), hrec, hf⟩

/-- A function is in a recursive component exactly if it leads back to itself. -/
theorem Sorts.mem_recursiveFunctions_iff {cs : Components} {f : Nat} (h : cs.Sorts p g)
    (hg : Defined p g) : f ∈ cs.recursiveFunctions ↔
      TransGen (fun a b => ∃ e ∈ g.edges, e.caller = a ∧ e.callee = b) f f := by
  rw [mem_recursiveFunctions]
  constructor
  · rintro ⟨k, hk, hrec, hf⟩
    obtain ⟨v, hv, hcycle⟩ := (h.cyclic_iff hk).1 hrec
    obtain ⟨-, hfv, hvf⟩ := (h.same_iff (h.of?_iff.2 ⟨hk, hf⟩)).1 (h.of?_iff.2 ⟨hk, hv⟩)
    exact (hcycle.trans_left hvf).trans_right hfv
  · intro hcycle
    obtain ⟨_, -, e, he, -, rfl⟩ := TransGen.tail'_iff.1 hcycle
    obtain ⟨k, hk⟩ := h.exists_iff.2 (hg e he)
    obtain ⟨hlt, hmem⟩ := h.of?_iff.1 hk
    exact ⟨k, hlt, (h.cyclic_iff hlt).2 ⟨_, hmem, hcycle⟩, hmem⟩

/-! ## callees first -/

/-- A component that calls another one comes later. -/
theorem Calls.lt (hg : Defined p g) (h : (ofGraph p g).Calls g k l) :
    l < k ∧ k < (ofGraph p g).list.size := by
  obtain ⟨hne, e, he, hk, hl⟩ := h
  obtain ⟨h, -⟩ := ComponentSearch.ofGraph_lists hg
  obtain ⟨j, hj, hcallee⟩ := h.ordered he hk
  rw [hl, Option.some.injEq] at hcallee
  exact ⟨Nat.lt_of_le_of_ne (hcallee ▸ hj) (Ne.symm hne), (h.of?_iff.1 hk).1⟩

theorem pair_sublist_range {n : Nat} (hlk : l < k) (hk : k < n) :
    [l, k].Sublist (List.range n) := by
  have hfst : [l].Sublist (List.range k) := List.singleton_sublist.2 (List.mem_range.2 hlk)
  have hboth : ([l] ++ [k]).Sublist (List.range (k + 1)) := by
    rw [List.range_succ]
    exact hfst.append (.refl [k])
  exact hboth.trans (List.range_sublist.2 hk)

/-- A component that calls another one comes before it in one order and after it in the other. -/
theorem Calls.ordered (hg : Defined p g) (h : (ofGraph p g).Calls g k l) :
    [k, l].Sublist (ofGraph p g).topDown ∧ [l, k].Sublist (ofGraph p g).bottomUp := by
  obtain ⟨hlk, hk⟩ := h.lt hg
  have hup := pair_sublist_range hlk hk
  exact ⟨hup.reverse, hup⟩

end Components

/-! ## what analyses visit -/

namespace Subject

/-- How analyses go through the live components. -/
structure VisitsInOrder (s : Subject) : Prop where
  bottomUp_nodup : s.bottomUp.Nodup
  topDown_nodup : s.topDown.Nodup
  mem_bottomUp : ∀ {k}, k ∈ s.bottomUp ↔
    k < s.components.list.size ∧ s.isAnalyzable (s.components.get k).rep = true
  mem_topDown : ∀ {k}, k ∈ s.topDown ↔
    k < s.components.list.size ∧ s.isAnalyzable (s.components.get k).rep = true
  /-- At the visit of a component its live callees were visited. -/
  callees_before : ∀ {before after k l}, s.bottomUp = before ++ k :: after →
    s.components.Calls s.calls k l → l ∈ s.bottomUp → l ∈ before
  /-- At the visit of a component its live callers were visited. -/
  callers_before : ∀ {before after k l}, s.topDown = before ++ l :: after →
    s.components.Calls s.calls k l → k ∈ s.topDown → k ∈ before

variable {s : Subject}

theorem topDown_eq : s.topDown = s.bottomUp.reverse := by
  rw [topDown, bottomUp, liveComponents, Components.topDown, List.filter_reverse]
  rfl

theorem mem_bottomUp_iff {k : ComponentId} : k ∈ s.bottomUp ↔
    k < s.components.list.size ∧ s.isAnalyzable (s.components.get k).rep = true := by
  rw [bottomUp, liveComponents, List.mem_filter, Components.bottomUp, List.mem_range]

/-- What is listed and comes earlier in the order of a list stands before. -/
theorem mem_before_of_pairwise {r : Nat → Nat → Prop} [Std.Asymm r]
    {before after : List Nat} {a b : Nat} (horder : (before ++ b :: after).Pairwise r)
    (ha : a ∈ before ++ b :: after) (hlt : r a b) : a ∈ before := by
  rw [List.pairwise_append, List.pairwise_cons] at horder
  rw [List.mem_append, List.mem_cons] at ha
  rcases ha with ha | rfl | ha
  · exact ha
  · exact absurd hlt (Std.Asymm.asymm a a hlt)
  · exact absurd hlt (Std.Asymm.asymm b a (horder.2.1.1 a ha))

theorem visitsInOrder (hg : Components.Defined s.program s.calls)
    (hcomps : s.components = .ofGraph s.program s.calls) : s.VisitsInOrder where
  bottomUp_nodup := List.nodup_range.filter _
  topDown_nodup := by
    rw [topDown_eq]
    exact List.nodup_reverse.2 (List.nodup_range.filter _)
  mem_bottomUp := mem_bottomUp_iff
  mem_topDown {k} := by
    rw [topDown_eq, List.mem_reverse]
    exact mem_bottomUp_iff
  callees_before {before after k l} horder hcalls hl := by
    have hlk := (Components.Calls.lt hg (hcomps ▸ hcalls)).1
    -- The order ascends, so `l` is not among the components from `k` on.
    have hasc : s.bottomUp.Pairwise (· < ·) := List.pairwise_lt_range.filter _
    exact mem_before_of_pairwise (horder ▸ hasc) (horder ▸ hl) hlk
  callers_before {before after k l} horder hcalls hk := by
    have hlk := (Components.Calls.lt hg (hcomps ▸ hcalls)).1
    have hdesc : s.topDown.Pairwise (· > ·) := by
      rw [topDown_eq, List.pairwise_reverse]
      exact List.pairwise_lt_range.filter _
    exact mem_before_of_pairwise (horder ▸ hdesc) (horder ▸ hk) hlk

/-- In a program whose instructions stand in blocks of their own function, the members of a
component are live together. -/
theorem Prepared.mem_bottomUp_iff {p : Program} {c : Config} {f : FuncId} {k : ComponentId}
    (h : s.Prepared p c) (hp : p.WellFormed) (hplaced : p.Placed)
    (hk : s.components.of? f = some k) :
    k ∈ s.bottomUp ↔ s.isAnalyzable f = true := by
  obtain ⟨hclass, hmem, hlt⟩ := h.class_of_of? hk
  obtain ⟨hdef, hto, hback⟩ := (hclass.mem_iff hmem).1 hclass.rep_mem
  have hfdef := ((hclass.mem_iff hmem).1 hmem).1
  rw [Subject.mem_bottomUp_iff, and_iff_right hlt]
  simp only [isAnalyzable, h.program, hdef, hfdef, Bool.not_false, Bool.true_and]
  exact ⟨h.isLive_of_reaches hp hplaced hback, h.isLive_of_reaches hp hplaced hto⟩

/-- **Summaries are ready when they are needed**: the components of a call graph are the classes of
functions that reach each other, callers stand before callees in one order and after them in the
other, and the live components are visited in these orders, each once and after those it needs. -/
theorem components_visited_in_order (hcalls : s.calls = .ofProgram s.program s.pointers)
    (hcomps : s.components = .ofGraph s.program s.calls) :
    s.components.Sorts s.program s.calls ∧
      (∀ k l, s.components.Calls s.calls k l → [k, l].Sublist s.components.topDown ∧
        [l, k].Sublist s.components.bottomUp) ∧
      s.VisitsInOrder := by
  have hg : Components.Defined s.program s.calls := hcalls ▸ Components.defined_ofProgram
  refine ⟨?_, fun k l h => ?_, visitsInOrder hg hcomps⟩
  · rw [hcomps]
    exact Components.ofGraph_sorts hg
  · rw [hcomps] at h ⊢
    exact h.ordered hg

/-- Two functions call each other, `main` calls one of them and starts a thread. -/
def mutualCalls : Program := Builder.ofScript
  [.global "t" 0, .declare "main" 0, .declare "even" 0, .declare "odd" 0, .declare "worker" 1,
    .declare "thread_create" 3, .const 0,
    .body 0, .append 0 0 (.call (.direct 4) [0, 4, 10]), .append 0 0 (.call (.direct 1) []),
    .append 0 0 (.ret none),
    .body 1, .append 1 1 (.call (.direct 2) []), .append 1 1 (.ret none),
    .body 2, .append 2 2 (.call (.direct 1) []), .append 2 2 (.ret none),
    .body 3, .append 3 3 (.ret none)]

/-- The routine is visited first from below, then the two functions together, then `main`. -/
theorem components_visited_in_order_mutualCalls : ∃ s, prepare mutualCalls {} = .ok s ∧
    s.calls = .ofProgram s.program s.pointers ∧ s.components = .ofGraph s.program s.calls ∧
    s.bottomUp.map (fun k => (s.components.get k).members) = [[3], [1, 2], [0]] ∧
    s.components.Sorts s.program s.calls ∧
      (∀ k l, s.components.Calls s.calls k l → [k, l].Sublist s.components.topDown ∧
        [l, k].Sublist s.components.bottomUp) ∧
      s.VisitsInOrder := by
  have heval : (prepare mutualCalls {}).toOption.any (fun s =>
      s.bottomUp.map (fun k => (s.components.get k).members) == [[3], [1, 2], [0]]) = true := by
    decide +kernel
  obtain ⟨s, hs, heval⟩ := exists_of_any_toOption heval
  have h := prepared hs
  have hcalls : s.calls = .ofProgram s.program s.pointers := h.program ▸ h.calls
  have hcomps : s.components = .ofGraph s.program s.calls := h.program ▸ h.components
  exact ⟨s, hs, hcalls, hcomps, beq_iff_eq.1 heval, components_visited_in_order hcalls hcomps⟩

end Subject

end DataRace
