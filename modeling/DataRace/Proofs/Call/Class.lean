import DataRace.Proofs.Subject

/-!
# DataRace.Proofs.Call.Class

The classes of functions that reach each other over calls and forks.

* `Component.Class` — a component that is such a class;
* `Components.Lists` — components that are classes, numbered callees first.
-/

namespace DataRace

open Std Relation

/-- Whether a function may enter another one, over calls and forks. -/
def CallGraph.Reaches (g : CallGraph) : FuncId → FuncId → Prop :=
  ReflTransGen fun a b => ∃ e ∈ g.edges, e.caller = a ∧ e.callee = b

theorem CallGraph.Reaches.of_edge {g : CallGraph} {e : CallEdge} (he : e ∈ g.edges) :
    g.Reaches e.caller e.callee :=
  .single ⟨e, he, rfl, rfl⟩

theorem Program.lt_of_defined {p : Program} {f : Nat} (h : (p.func f).isDeclaration = false) :
    f < p.funcs.size := by
  by_contra hle
  rw [func_of_size_le (Nat.le_of_not_lt hle)] at h
  cases h

theorem Program.WellFormed.defined_funcOf {p : Program} (hp : p.WellFormed) {i : Nat}
    (hi : i < p.insts.size) : (p.func (p.funcOf i)).isDeclaration = false := by
  rw [Function.isDeclaration, List.isEmpty_eq_false_iff]
  exact hp.funcOf_defined hi

theorem Program.mem_defined_iff {p : Program} {f : FuncId} :
    f ∈ p.funcIds.filter (fun f => !(p.func f).isDeclaration) ↔
      (p.func f).isDeclaration = false := by
  rw [List.mem_filter, funcIds, List.mem_range, Bool.not_eq_true']
  exact and_iff_right_of_imp lt_of_defined

/-! ## the class of a component -/

/-- The functions that reach each other with those they reach. -/
structure Component.Class (p : Program) (g : CallGraph) (c : Component) : Prop where
  ascending : c.members.Pairwise (· < ·)
  /-- The representative is the smallest member. -/
  smallest : c.members.head? = some c.rep
  mem_iff : ∀ {a b : FuncId}, a ∈ c.members →
    (b ∈ c.members ↔ (p.func b).isDeclaration = false ∧ g.Reaches a b ∧ g.Reaches b a)
  /-- A component with a cycle has several members, or one that enters itself. -/
  recursive_iff : c.recursive = true ↔
    c.members.length > 1 ∨ ∃ e ∈ g.edges, e.caller ∈ c.members ∧ e.callee = e.caller

/-- A list without two elements has the same element everywhere. -/
theorem eq_of_not_one_lt_length {fs : List FuncId} (hlen : ¬fs.length > 1) {a b : FuncId}
    (ha : a ∈ fs) (hb : b ∈ fs) : a = b := by
  cases fs with
  | nil => cases ha
  | cons f fs =>
    rw [List.length_cons] at hlen
    obtain rfl : fs = [] := List.eq_nil_of_length_eq_zero (by omega)
    exact (List.mem_singleton.1 ha).trans (List.mem_singleton.1 hb).symm

namespace Component.Class

variable {p : Program} {g : CallGraph} {c : Component}

theorem rep_mem (h : c.Class p g) : c.rep ∈ c.members := List.mem_of_head? h.smallest

/-- Without recursion there is one member. -/
theorem eq_of_mem (h : c.Class p g) (hrec : c.recursive = false) {a b : FuncId}
    (ha : a ∈ c.members) (hb : b ∈ c.members) : a = b := by
  rw [← Bool.not_eq_true, h.recursive_iff, not_or] at hrec
  exact eq_of_not_one_lt_length hrec.1 ha hb

/-- Without recursion no member calls itself. -/
theorem no_loop (h : c.Class p g) (hrec : c.recursive = false) {e : CallEdge} (he : e ∈ g.edges)
    (hmem : e.caller ∈ c.members) : e.callee ≠ e.caller := by
  rw [← Bool.not_eq_true, h.recursive_iff, not_or] at hrec
  exact fun hloop => hrec.2 ⟨e, he, hmem, hloop⟩

/-- A component is recursive exactly if some member leads back to itself. -/
theorem cyclic_iff (h : c.Class p g) (hg : ∀ e ∈ g.edges, (p.func e.callee).isDeclaration = false) :
    c.recursive = true ↔ ∃ f ∈ c.members,
      TransGen (fun a b => ∃ e ∈ g.edges, e.caller = a ∧ e.callee = b) f f := by
  constructor
  · intro hrec
    rcases h.recursive_iff.1 hrec with hlen | ⟨e, he, hmem, hloop⟩
    · -- Two different members lead to each other.
      have hlt := List.pairwise_iff_getElem.1 h.ascending 0 1 (by omega) hlen Nat.one_pos
      have hfst : c.members[0] ∈ c.members := List.getElem_mem _
      obtain ⟨-, hto, hback⟩ := (h.mem_iff hfst).1 (List.getElem_mem hlen)
      rcases reflTransGen_iff_eq_or_transGen.1 hto with heq | hto
      · exact absurd heq (Nat.ne_of_gt hlt)
      · exact ⟨_, hfst, hto.trans_left hback⟩
    · exact ⟨_, hmem, .single ⟨e, he, rfl, hloop⟩⟩
  · rintro ⟨f, hf, hcycle⟩
    rw [h.recursive_iff]
    obtain ⟨_, ⟨e, he, rfl, rfl⟩, hback⟩ := TransGen.head'_iff.1 hcycle
    have hcallee : e.callee ∈ c.members := (h.mem_iff hf).2 ⟨hg e he, .of_edge he, hback⟩
    by_cases hloop : e.callee = e.caller
    · exact .inr ⟨e, he, hf, hloop⟩
    · refine .inl ?_
      by_contra hlen
      exact hloop (eq_of_not_one_lt_length hlen hcallee hf)

end Component.Class

/-! ## lists of classes -/

namespace Components

/-- Edges lead to defined functions. -/
def Defined (p : Program) (g : CallGraph) : Prop :=
  ∀ e ∈ g.edges, (p.func e.callee).isDeclaration = false

theorem defined_ofProgram {p : Program} {t : PointsTo} : Defined p (.ofProgram p t) :=
  fun _ he => (CallGraph.mem_edges_iff.1 he).2.2.2.1

theorem get_eq_getElem {cs : Components} {k : Nat} (hk : k < cs.list.size) :
    cs.get k = cs.list[k] := by
  rw [get, Array.getD_eq_getD_getElem?, Array.getElem?_eq_getElem hk, Option.getD_some]

/-- Components that are classes, such that what a member enters has a component that is not
later. -/
structure Lists (p : Program) (g : CallGraph) (cs : Components) : Prop where
  of?_iff : ∀ {f k : Nat}, cs.of? f = some k ↔ k < cs.list.size ∧ f ∈ (cs.get k).members
  classes : ∀ {k : Nat}, k < cs.list.size → (cs.get k).Class p g
  ordered : ∀ {e} {k : Nat}, e ∈ g.edges → cs.of? e.caller = some k →
    ∃ l ≤ k, cs.of? e.callee = some l

namespace Lists

variable {p : Program} {g : CallGraph} {cs : Components} {v w k l : Nat}

theorem empty : Lists p g {} where
  of?_iff := by simp [of?]
  classes h := absurd h (Nat.not_lt_zero _)
  ordered _ h := by simp [of?] at h

theorem get_push {c : Component} {m : IdMap ComponentId} :
    get ⟨cs.list.push c, m⟩ k = if k = cs.list.size then c else cs.get k := by
  simp only [get, Array.getD_eq_getD_getElem?, Array.getElem?_push]
  split <;> rfl

/-- A class is added that only enters itself and the classes before it. -/
theorem push (h : Lists p g cs) {c : Component} (hc : c.Class p g) {m : IdMap ComponentId}
    (hplaces : ∀ f : Nat, m[f]? = if f ∈ c.members then some cs.list.size else cs.of? f)
    (hnew : ∀ f ∈ c.members, cs.of? f = none)
    (hcalls : ∀ e ∈ g.edges, e.caller ∈ c.members →
      e.callee ∈ c.members ∨ ∃ l, cs.of? e.callee = some l) :
    Lists p g ⟨cs.list.push c, m⟩ := by
  have hold {f k : Nat} (hk : cs.of? f = some k) : m[f]? = some k := by
    rw [hplaces, if_neg fun hf => by simp [hnew f hf] at hk, hk]
  refine ⟨fun {f k} => ?_, fun {k} hk => ?_, fun {e k} he hk => ?_⟩
  · rw [of?, hplaces, get_push, Array.size_push]
    by_cases hlast : k = cs.list.size
    · subst hlast
      by_cases hf : f ∈ c.members
      · simp [hf]
      · simp [hf, h.of?_iff]
    · by_cases hf : f ∈ c.members
      · have hnot : ¬(k < cs.list.size ∧ f ∈ (cs.get k).members) := by
          rw [← h.of?_iff, hnew f hf]
          simp
        rw [if_pos hf, if_neg hlast]
        exact ⟨fun heq => absurd (Option.some.inj heq).symm hlast,
          fun ⟨hk, hmem⟩ => absurd ⟨by omega, hmem⟩ hnot⟩
      · rw [if_neg hf, if_neg hlast, h.of?_iff]
        exact and_congr_left fun _ => by omega
  · rw [get_push]
    split
    · exact hc
    · next hne =>
      rw [Array.size_push] at hk
      exact h.classes (by omega)
  · rw [of?, hplaces] at hk
    split at hk
    · next hmem =>
      rcases hcalls e he hmem with hin | ⟨l, hl⟩
      · exact ⟨k, Nat.le_refl k, by rw [of?, hplaces, if_pos hin, hk]⟩
      · have hlt := (h.of?_iff.1 hl).1
        exact ⟨l, by rw [← Option.some.inj hk]; exact hlt.le, hold hl⟩
    · obtain ⟨l, hle, hl⟩ := h.ordered he hk
      exact ⟨l, hle, hold hl⟩

/-- A function is in the component at its place, and that is its class. -/
theorem class_of_of? (h : Lists p g cs) (hk : cs.of? v = some k) :
    (cs.get k).Class p g ∧ v ∈ (cs.get k).members ∧ k < cs.list.size := by
  obtain ⟨hlt, hmem⟩ := h.of?_iff.1 hk
  exact ⟨h.classes hlt, hmem, hlt⟩

theorem defined (h : Lists p g cs) (hk : cs.of? v = some k) :
    (p.func v).isDeclaration = false := by
  obtain ⟨hclass, hmem, -⟩ := h.class_of_of? hk
  exact ((hclass.mem_iff hmem).1 hmem).1

/-- Two functions share a component exactly if they reach each other. -/
theorem of?_iff_reaches (h : Lists p g cs) (hk : cs.of? v = some k) : cs.of? w = some k ↔
    (p.func w).isDeclaration = false ∧ g.Reaches v w ∧ g.Reaches w v := by
  obtain ⟨hclass, hmem, hlt⟩ := h.class_of_of? hk
  rw [h.of?_iff, and_iff_right hlt, hclass.mem_iff hmem]

/-- **Callees come first.**  A function that another one leads to is in the same component or in an
earlier one. -/
theorem exists_le_of_reaches (h : Lists p g cs) (hreach : g.Reaches v w)
    (hk : cs.of? v = some k) : ∃ l ≤ k, cs.of? w = some l := by
  induction hreach with
  | refl => exact ⟨k, Nat.le_refl k, hk⟩
  | tail _ hedge ih =>
    obtain ⟨e, he, rfl, rfl⟩ := hedge
    obtain ⟨l, hlk, hl⟩ := ih
    obtain ⟨j, hjl, hj⟩ := h.ordered he hl
    exact ⟨j, hjl.trans hlk, hj⟩

end Lists

end Components

end DataRace
