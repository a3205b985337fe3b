import DataRace.Proofs.Call.Search

/-!
# DataRace.Proofs.Call.Component

The components of a prepared program are the classes of functions that reach
each other, numbered callees first.

* `Prepared.class_of_of?` says that every component is a class,
  `Prepared.exists_of?` that every defined function is in one;
* `Prepared.of?_le` — a function is in no later component than one that leads to it;
* `Prepared.mem_topDown` — a component with a live member is analysed.
-/

namespace DataRace

open Std Relation

theorem Components.edge_iff {p : Program} {g : CallGraph} {v w : FuncId} (hg : Defined p g) :
    Search.Edge p.funcs.size (fun f => (g.edgesFrom f).map (·.callee)) v w ↔
      ∃ e ∈ g.edges, e.caller = v ∧ e.callee = w := by
  simp only [Search.Edge, CallGraph.edgesFrom, List.mem_map, List.mem_filter, decide_eq_true_eq]
  constructor
  · rintro ⟨⟨e, ⟨he, hv⟩, hw⟩, -⟩
    exact ⟨e, he, hv, hw⟩
  · rintro ⟨e, he, hv, rfl⟩
    exact ⟨⟨e, ⟨he, hv⟩, rfl⟩, Program.lt_of_defined (hg e he)⟩

/-! ## components that are analysed -/

namespace Subject.Prepared

variable {p : Program} {c : Config} {s : Subject} {f k : Nat}

theorem defined (h : Prepared p c s) : Components.Defined p s.calls :=
  h.calls ▸ Components.defined_ofProgram

theorem defined_of_mem_calleesAt (h : Prepared p c s) {i : InstId} (hf : f ∈ s.calls.calleesAt i) :
    (p.func f).isDeclaration = false := by
  obtain ⟨e, he, rfl⟩ := List.mem_map.1 hf
  exact h.defined e (List.mem_filter.1 (List.mem_filter.1 he).1).1

/-- An edge starts at a call of its caller. -/
theorem edge_spec (h : Prepared p c s) {e : CallEdge} (he : e ∈ s.calls.edges) :
    e.site < p.insts.size ∧ p.isCall e.site = true ∧ e.caller = p.funcOf e.site := by
  rw [h.calls] at he
  obtain ⟨hlt, hcall, hcaller, -⟩ := CallGraph.mem_edges_iff.1 he
  exact ⟨hlt, hcall, hcaller⟩

/-- The search lists the classes of the call graph. -/
theorem lists (h : Prepared p c s) : s.components.Lists p s.calls :=
  h.components ▸ (ComponentSearch.ofGraph_lists h.defined).1

theorem class_of_of? (h : Prepared p c s) (hk : s.components.of? f = some k) :
    (s.components.get k).Class p s.calls ∧ f ∈ (s.components.get k).members ∧
      k < s.components.list.size :=
  h.lists.class_of_of? hk

theorem exists_of? (h : Prepared p c s) (hf : (p.func f).isDeclaration = false) :
    ∃ k, s.components.of? f = some k :=
  h.components ▸ (ComponentSearch.ofGraph_lists h.defined).2 f hf

/-- Functions that reach each other are in the same component. -/
theorem of?_congr (h : Prepared p c s) {g : FuncId} (hf : (p.func f).isDeclaration = false)
    (hg : (p.func g).isDeclaration = false) (hfg : s.calls.Reaches f g)
    (hgf : s.calls.Reaches g f) : s.components.of? f = s.components.of? g := by
  obtain ⟨k, hk⟩ := h.exists_of? hf
  rw [hk, (h.lists.of?_iff_reaches hk).2 ⟨hg, hfg, hgf⟩]

/-- Components are numbered callees first. -/
theorem of?_le (h : Prepared p c s) {g : FuncId} {l : ComponentId} (hreach : s.calls.Reaches f g)
    (hk : s.components.of? f = some k) (hl : s.components.of? g = some l) : l ≤ k := by
  obtain ⟨j, hj, hg⟩ := h.lists.exists_le_of_reaches hreach hk
  rw [hl, Option.some.injEq] at hg
  exact hg ▸ hj

/-- What a live function calls or starts is live. -/
theorem isLive_callee (h : Prepared p c s) (hp : p.WellFormed) (hplaced : p.Placed) {e : CallEdge}
    (he : e ∈ s.calls.edges) (hlive : s.calls.isLive e.caller = true) :
    s.calls.isLive e.callee = true := by
  have hdef := h.defined e he
  have hcall : e ∈ (CallGraph.ofProgram p s.pointers).edges := h.calls ▸ he
  obtain ⟨hsite, hiscall, hcaller⟩ := h.edge_spec he
  rw [h.calls] at hlive ⊢
  simp only [CallGraph.isLive, CallGraph.ofProgram, CallGraph.liveFunctions] at hlive ⊢
  split
  · rw [TreeSet.contains_ofList, List.contains_iff_mem, List.mem_filter, Program.funcIds,
      List.mem_range, hdef]
    exact ⟨Program.lt_of_defined hdef, rfl⟩
  · next main hmain =>
    rw [hmain] at hlive
    simp only [TreeSet.contains_iff_mem, IdSet.mem_filter] at hlive ⊢
    refine ⟨?_, by rw [hdef]; rfl⟩
    obtain ⟨a, ha, hlt, hpath⟩ := mem_reachable_iff.1 hlive.1
    refine mem_reachable_iff.2 ⟨a, ha, hlt, hpath.tail ⟨?_, Program.lt_of_defined hdef⟩⟩
    refine List.mem_flatMap.2 ⟨e.site, List.mem_filter.2 ⟨?_, hiscall⟩, ?_⟩
    · exact (hplaced.mem_funcInsts_iff hp).2 ⟨hsite, hcaller.symm⟩
    · refine List.mem_append_left _ (List.mem_map.2 ⟨e, List.mem_filter.2 ⟨hcall, ?_⟩, rfl⟩)
      exact decide_eq_true rfl

theorem isLive_of_reaches (h : Prepared p c s) (hp : p.WellFormed) (hplaced : p.Placed) {g : FuncId}
    (hreach : s.calls.Reaches f g) (hlive : s.calls.isLive f = true) : s.calls.isLive g = true := by
  induction hreach with
  | refl => exact hlive
  | tail _ hedge ih =>
    obtain ⟨e, he, rfl, rfl⟩ := hedge
    exact h.isLive_callee hp hplaced he ih

theorem defined_of_isAnalyzable (h : Prepared p c s) (hf : s.isAnalyzable f = true) :
    (p.func f).isDeclaration = false := by
  rw [isAnalyzable, Bool.and_eq_true, Bool.not_eq_true', h.program] at hf
  exact hf.1

/-- A component with a live member is analysed. -/
theorem mem_topDown (h : Prepared p c s) (hp : p.WellFormed) (hplaced : p.Placed)
    (hf : s.isAnalyzable f = true) (hk : s.components.of? f = some k) : k ∈ s.topDown := by
  obtain ⟨hclass, hmem, hlt⟩ := h.class_of_of? hk
  obtain ⟨hdef, hreach, -⟩ := (hclass.mem_iff hmem).1 hclass.rep_mem
  rw [isAnalyzable, Bool.and_eq_true] at hf
  have hlive := h.isLive_of_reaches hp hplaced hreach hf.2
  rw [topDown, liveComponents, Components.topDown, Components.bottomUp, List.mem_filter,
    List.mem_reverse, List.mem_range]
  refine ⟨hlt, ?_⟩
  rw [isAnalyzable, h.program, hdef, hlive]
  rfl

/-- Without recursion no function leads back to the function that calls it. -/
theorem not_reaches_caller (h : s.Prepared p c)
    (hrec : ∀ k ∈ s.components.list, k.recursive = false) {e : CallEdge}
    (he : e ∈ s.calls.edges) : ¬s.calls.Reaches e.callee e.caller := by
  intro hback
  have hcallee := h.defined e he
  have hcaller : (p.func e.caller).isDeclaration = false := by
    rcases hback.cases_tail with heq | ⟨_, -, e', he', -, heq⟩
    · rwa [heq]
    · rw [← heq]
      exact h.defined e' he'
  obtain ⟨k, hk⟩ := h.exists_of? hcallee
  obtain ⟨hclass, hmem, hlt⟩ := h.class_of_of? hk
  have hnot : (s.components.get k).recursive = false := by
    rw [Components.get_eq_getElem hlt]
    exact hrec _ (Array.getElem_mem hlt)
  have hmem' : e.caller ∈ (s.components.get k).members :=
    (hclass.mem_iff hmem).2 ⟨hcaller, hback, .single ⟨e, he, rfl, rfl⟩⟩
  exact hclass.no_loop hnot he hmem' (hclass.eq_of_mem hnot hmem hmem')

end Subject.Prepared

theorem Subject.mem_callSites_iff {s : Subject} {f : FuncId} {i : InstId} : i ∈ s.callSites f ↔
    ∃ e ∈ s.calls.edges, e.callee = f ∧ e.fork = false ∧ e.site = i ∧
      s.calls.isLive (s.program.funcOf i) = true := by
  simp only [Subject.callSites, CallGraph.callSitesTo, CallGraph.edgesTo, List.mem_filter,
    List.mem_map, decide_eq_true_eq, Bool.not_eq_true']
  constructor
  · rintro ⟨⟨e, ⟨⟨he, hf⟩, hfork⟩, rfl⟩, hlive⟩
    exact ⟨e, he, hf, hfork, rfl, hlive⟩
  · rintro ⟨e, he, hf, hfork, rfl, hlive⟩
    exact ⟨⟨e, ⟨⟨he, hf⟩, hfork⟩, rfl⟩, hlive⟩

/-! ## programs with one body -/

namespace Subject.Prepared

variable {p : Program} {c : Config} {s : Subject} {main : FuncId} {k : Nat}

/-- Every component of a program with one body is `main` alone. -/
theorem members_singleBody (h : Prepared p c s) (hb : p.SingleBody main)
    (hk : k < s.components.list.size) :
    (s.components.get k).rep = main ∧ (s.components.get k).members = [main] := by
  have hclass := h.lists.classes hk
  have hone {f : FuncId} (hf : f ∈ (s.components.get k).members) : f = main :=
    hb.defined_iff.1 (h.lists.defined (h.lists.of?_iff.2 ⟨hk, hf⟩))
  have hrep := hone hclass.rep_mem
  refine ⟨hrep, ?_⟩
  have hasc := hclass.ascending
  obtain ⟨fs, hfs⟩ := List.head?_eq_some_iff.1 hclass.smallest
  rw [hrep] at hfs
  rw [hfs, List.pairwise_cons] at hasc
  have hnone : fs = [] := by
    refine List.eq_nil_iff_forall_not_mem.2 fun f hf => ?_
    have hlt := hasc.1 f hf
    have hin : f ∈ (s.components.get k).members := hfs ▸ List.mem_cons_of_mem main hf
    rw [hone hin] at hlt
    exact Nat.lt_irrefl main hlt
  rw [hfs, hnone]

theorem size_singleBody (h : Prepared p c s) (hb : p.SingleBody main) :
    s.components.list.size = 1 := by
  have hsame {j : Nat} (hj : j < s.components.list.size) : s.components.of? main = some j := by
    refine h.lists.of?_iff.2 ⟨hj, ?_⟩
    rw [(h.members_singleBody hb hj).2]
    exact List.mem_singleton_self main
  obtain ⟨k, hk⟩ := h.exists_of? (hb.defined_iff.2 rfl)
  have hpos := (h.lists.of?_iff.1 hk).1
  by_contra hne
  have hzero := hsame (j := 0) (by omega)
  have hone := hsame (j := 1) (by omega)
  rw [hzero] at hone
  cases hone

/-- The only component is analysed. -/
theorem order_singleBody (h : Prepared p c s) (hb : p.SingleBody main) :
    s.bottomUp = [0] ∧ s.topDown = [0] ∧ (s.components.get 0).members = [main] := by
  have hsize := h.size_singleBody hb
  obtain ⟨hrep, hmembers⟩ := h.members_singleBody hb (k := 0) (by omega)
  have horder : s.components.bottomUp = [0] := by
    rw [Components.bottomUp, hsize]
    rfl
  have hlive : s.isAnalyzable (s.components.get 0).rep = true := hrep ▸ h.isAnalyzable_main hb
  refine ⟨?_, ?_, hmembers⟩
  · rw [bottomUp, horder, liveComponents, List.filter_singleton, hlive]
    rfl
  · rw [topDown, Components.topDown, horder, liveComponents, List.reverse_singleton,
      List.filter_singleton, hlive]
    rfl

end Subject.Prepared

end DataRace
