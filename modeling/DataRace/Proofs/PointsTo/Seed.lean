import DataRace.Proofs.PointsTo.Linking

/-!
# DataRace.Proofs.PointsTo.Seed

The state before the first step.

Seeding records every constraint that an instruction states by itself.  The
sets it fills are in the queue, and the queue is longer than they account for
by at most one node for each instruction:

* `SeededInst`: what is recorded of one instruction;
* `Ready`: what holds of the state whenever the solver pauses;
* `ready_seed`: it holds of the seeded state.
-/

namespace DataRace

open Std Assignment Program

namespace PointsTo.Solver

/-- The constraint of an instruction is recorded: as an object in a set, a flow, an edge or a
link. -/
structure SeededInst (p : Program) (s : Solver) (i : Nat) : Prop where
  alloc : ∀ {heap fields r o}, p.op i = .alloc heap fields → p.result i = some r →
    (objects p).allocObj i = some o →
    o ∈ s.result.nodePts r ∧ ⟨p.values.size + o, r, .addr⟩ ∈ s.result.graph.edges
  cast : ∀ {src r}, p.op i = .cast src → p.result i = some r → r ∈ s.flow src
  phi : ∀ {ins r v b}, p.op i = .phi ins → p.result i = some r → (v, b) ∈ ins → r ∈ s.flow v
  load : ∀ {ptr r}, p.op i = .load ptr → p.result i = some r →
    ⟨ptr, r, .load⟩ ∈ s.result.graph.edges
  store : ∀ {ptr val}, p.op i = .store ptr val → ⟨val, ptr, .store⟩ ∈ s.result.graph.edges
  field : ∀ {base k idx r}, p.op i = .project base (some k) idx → p.result i = some r →
    ⟨base, r, .field k⟩ ∈ s.result.graph.edges
  index : ∀ {base idx r}, p.op i = .project base none idx → p.result i = some r →
    ⟨base, r, .index⟩ ∈ s.result.graph.edges
  direct : ∀ {f}, p.directCallee i = some f → f ∈ s.result.calleeMap.getD i ∅

/-- What holds of the state whenever the solver pauses. -/
structure Ready (p : Program) (variableIndex : Bool) (A : Assignment) (s : Solver) : Prop where
  inv : Inv p variableIndex A s
  global : ∀ {g : Nat}, g < p.globals.size →
    (objects p).globalObj g ∈ s.result.nodePts (p.global g).addr ∧
      ⟨p.values.size + (objects p).globalObj g, (p.global g).addr, .addr⟩ ∈ s.result.graph.edges
  function : ∀ {f : Nat}, f < p.funcs.size →
    (objects p).funcObj f ∈ s.result.nodePts (p.func f).addr ∧
      ⟨p.values.size + (objects p).funcObj f, (p.func f).addr, .addr⟩ ∈ s.result.graph.edges
  inst : ∀ {i : Nat}, i < p.insts.size → SeededInst p s i
  linked : ∀ {i f : Nat}, f ∈ s.result.calleeMap.getD i ∅ → CallLinked p s i f
  started : ∀ {i f : Nat}, f ∈ s.result.spawneeMap.getD i ∅ → StartLinked p s i f
  joinFlow : ∀ {e : Edge} {i : InstId}, e ∈ s.result.graph.edges → e.kind = .join i →
    e.dst ∈ s.flow e.src
  debt_le : debt p s ≤ p.insts.size

variable {p : Program} {variableIndex : Bool} {A : Assignment} {s s' : Solver}

theorem SeededInst.mono (h : Extends p s s') {i : Nat} (hi : SeededInst p s i) :
    SeededInst p s' i where
  alloc hop hr ho := (hi.alloc hop hr ho).imp h.pts h.edges
  cast hop hr := h.flow (hi.cast hop hr)
  phi hop hr hv := h.flow (hi.phi hop hr hv)
  load hop hr := h.edges (hi.load hop hr)
  store hop := h.edges (hi.store hop)
  field hop hr := h.edges (hi.field hop hr)
  index hop hr := h.edges (hi.index hop hr)
  direct hf := h.callees (hi.direct hf)

theorem Ready.extend (h : Ready p variableIndex A s) (hinv : Inv p variableIndex A s')
    (hext : Extends p s s') (hdebt : debt p s' ≤ debt p s) : Ready p variableIndex A s' where
  inv := hinv
  global hg := (h.global hg).imp hext.pts hext.edges
  function hf := (h.function hf).imp hext.pts hext.edges
  inst hi := (h.inst hi).mono hext
  linked hf := (hext.linked hf).elim (fun hf => (h.linked hf).mono hext) id
  started hf := (hext.started hf).elim (fun hf => (h.started hf).mono hext) id
  joinFlow he hk := (hext.joinFlow he hk).elim (fun he => hext.flow (h.joinFlow he hk)) id
  debt_le := Int.le_trans hdebt h.debt_le

/-! ## one instruction -/

/-- What seeding one instruction leads to.  A call through a pointer queues the pointer and pays
nothing for it. -/
def SeedsInst (p : Program) (variableIndex : Bool) (A : Assignment) (s s' : Solver) (i : Nat) :
    Prop :=
  Inv p variableIndex A s' ∧ Grows p s s' ∧ debt p s' ≤ debt p s + 1 ∧ SeededInst p s' i

theorem Advances.seedsInst {i : Nat} (h : Advances p variableIndex A s s')
    (hi : SeededInst p s' i) : SeedsInst p variableIndex A s s' i :=
  ⟨h.inv, h.grows, by have := h.debt_le; omega, hi⟩

theorem seedInst_spec (hp : p.WellFormed) (hA : A.Closed p variableIndex)
    (h : Inv p variableIndex A s) {i : Nat} (hi : i < p.insts.size) :
    SeedsInst p variableIndex A s (seedInst p s i) i := by
  have hoperand {v : Nat} (hv : v ∈ (p.op i).operands) : v < p.values.size := hp.operand_lt hv
  unfold seedInst
  split
  · next r hop hr =>
    rw [allocObj, h.allocObjs]
    obtain ⟨o, ho, hmem⟩ := hA.alloc hop hr
    have ho' : (objects p).allocObjs[i]? = some o := ho
    rw [ho']
    obtain ⟨hadv, hin⟩ := advances_addAddress h (allocObj_lt ho) (result_lt hp hr) hmem
    refine hadv.seedsInst ?_
    constructor <;> intros <;> simp_all [directCallee]
  · next ptr r hop hr =>
    rw [hop] at hoperand
    have hptr := hoperand (v := ptr) (by simp [Operation.operands])
    have hr_lt := result_lt hp hr
    obtain ⟨hadv, hin⟩ := advances_addEdge (k := .load) h (lt_nodeCount hptr)
      (lt_nodeCount hr_lt) (by
        intro o ho
        simp only [node_value hptr, node_value hr_lt] at ho ⊢
        exact hA.load hop hr ho) (by simp)
    refine hadv.seedsInst ?_
    constructor <;> intros <;> simp_all [directCallee]
  · next ptr val hop =>
    rw [hop] at hoperand
    have hptr := hoperand (v := ptr) (by simp [Operation.operands])
    have hval := hoperand (v := val) (by simp [Operation.operands])
    obtain ⟨hadv, hin⟩ := advances_addEdge (k := .store) h (lt_nodeCount hval)
      (lt_nodeCount hptr) (by
        intro o ho
        simp only [node_value hptr, node_value hval] at ho ⊢
        exact hA.store hop ho) (by simp)
    refine hadv.seedsInst ?_
    constructor <;> intros <;> simp_all [directCallee]
  · next base offset idx r hop hr =>
    rw [hop] at hoperand
    have hbase := hoperand (v := base) (by simp [Operation.operands])
    have hr_lt := result_lt hp hr
    cases offset with
    | some k =>
      obtain ⟨hadv, hin⟩ := advances_addEdge (k := .field k) h (lt_nodeCount hbase)
        (lt_nodeCount hr_lt) (by
          refine ⟨⟨i, idx, hop⟩, fun {o o'} ho => ?_⟩
          simp only [node_value hbase, node_value hr_lt] at ho ⊢
          exact hA.field hop hr ho) (by simp)
      refine hadv.seedsInst ?_
      constructor <;> intros <;> simp_all [directCallee]
    | none =>
      obtain ⟨hadv, hin⟩ := advances_addEdge (k := .index) h (lt_nodeCount hbase)
        (lt_nodeCount hr_lt) (by
          intro o o' ho
          simp only [node_value hbase, node_value hr_lt] at ho ⊢
          exact hA.index hop hr ho) (by simp)
      refine hadv.seedsInst ?_
      constructor <;> intros <;> simp_all [directCallee]
  · next src r hop hr =>
    rw [hop] at hoperand
    have hsrc := hoperand (v := src) (by simp [Operation.operands])
    obtain ⟨hadv, hin⟩ := advances_addFlow_values (k := .copy) h hsrc (result_lt hp hr)
      (hA.cast hop hr) rfl (by simp)
    refine hadv.seedsInst ?_
    constructor <;> intros <;> simp_all [directCallee]
  · next ins r hop hr =>
    rw [hop] at hoperand
    obtain ⟨hadv, hin⟩ :=
      advances_foldl (l := ins) (f := fun s (x : Nat × Nat) => s.addFlow x.1 r .copy)
      (Q := fun s x => r ∈ s.flow x.1)
      (fun {s x} hx h => advances_addFlow_values h (hoperand (List.mem_map_of_mem hx))
        (result_lt hp hr) (hA.phi hop hr hx) rfl (by simp))
      (fun hext hx => hext.flow hx) h
    refine hadv.seedsInst ?_
    constructor
    case phi =>
      intro ins' r' v b hop' hr' hv
      cases hop.symm.trans hop'
      cases hr.symm.trans hr'
      exact hin _ hv
    all_goals intros; simp_all [directCallee]
  · next f args hop =>
    have hcallee : p.directCallee i = some f := by rw [directCallee, hop]
    obtain ⟨hadv, hin⟩ := advances_linkCall hp hA h hi (hA.direct hcallee)
    refine hadv.seedsInst ?_
    constructor <;> intros <;> simp_all [directCallee]
  · next v args hop =>
    refine ⟨h.enqueue v, grows_enqueue v, debt_enqueue v, ?_⟩
    constructor <;> intros <;> simp_all [directCallee]
  · next hstore hdirect _ halloc hload hproject hcast hphi =>
    refine h.advances_refl.seedsInst ?_
    constructor
    case alloc => exact fun hop hr => (halloc _ _ _ hop hr).elim
    case cast => exact fun hop hr => (hcast _ _ hop hr).elim
    case phi => exact fun hop hr => (hphi _ _ hop hr).elim
    case load => exact fun hop hr => (hload _ _ hop hr).elim
    case store => exact fun hop => (hstore _ _ hop).elim
    case field => exact fun hop hr => (hproject _ _ _ _ hop hr).elim
    case index => exact fun hop hr => (hproject _ _ _ _ hop hr).elim
    case direct =>
      intro f hf
      unfold directCallee at hf
      split at hf
      · next hop => exact (hdirect _ _ hop).elim
      · cases hf

theorem seedInsts_spec (hp : p.WellFormed) (hA : A.Closed p variableIndex) {l : List Nat}
    (his : ∀ i ∈ l, i < p.insts.size) (h : Inv p variableIndex A s) :
    Inv p variableIndex A (l.foldl (seedInst p) s) ∧ Grows p s (l.foldl (seedInst p) s) ∧
      debt p (l.foldl (seedInst p) s) ≤ debt p s + l.length ∧
      ∀ i ∈ l, SeededInst p (l.foldl (seedInst p) s) i := by
  induction l generalizing s with
  | nil => exact ⟨h, .refl s, by simp, nofun⟩
  | cons i l ih =>
    obtain ⟨hinv, hgrows, hdebt, hinst⟩ := seedInst_spec hp hA h (his i List.mem_cons_self)
    obtain ⟨hinv', hgrows', hdebt', hinsts⟩ :=
      ih (fun j hj => his j (List.mem_cons_of_mem i hj)) hinv
    rw [List.foldl_cons]
    refine ⟨hinv', hgrows.trans hgrows', ?_, fun j hj => ?_⟩
    · rw [List.length_cons]
      push_cast
      omega
    · obtain rfl | hj := List.mem_cons.1 hj
      · exact hinst.mono hgrows'.toExtends
      · exact hinsts j hj

/-! ## the seeded state -/

variable (p) in
/-- The state without any constraint. -/
def start : Solver :=
  { result := objects p, copies := Array.replicate (objects p).pts.size ∅ }

theorem nodePts_start (n : Nat) : (start p).result.nodePts n = ∅ := by
  simp only [start, nodePts, objects_eq, Array.getD_eq_getD_getElem?, Array.getElem?_replicate]
  split <;> rfl

theorem flow_start (n : Nat) : (start p).flow n = ∅ := by
  simp only [start, flow, Array.getD_eq_getD_getElem?, Array.getElem?_replicate]
  split <;> rfl

theorem size_pts_objects : (objects p).pts.size = nodeCount p := by
  rw [nodeCount, objects_eq]
  exact Array.size_replicate

theorem graph_objects : (objects p).graph = .ofCounts p.values.size (objects p).objs.size := by
  rw [objects_eq]

theorem calleeMap_objects : (objects p).calleeMap = ∅ := by
  rw [objects_eq]

theorem spawneeMap_objects : (objects p).spawneeMap = ∅ := by
  rw [objects_eq]

theorem joinMap_objects : (objects p).joinMap = ∅ := by
  rw [objects_eq]

theorem graphInv_ofCounts : GraphInv p (.ofCounts p.values.size (objects p).objs.size) where
  valueCount := rfl
  outgoing_size := Array.size_replicate
  incoming_size := Array.size_replicate
  nodup := List.nodup_nil
  lt he := absurd he (by simp [AssignGraph.ofCounts])
  mem_outEdges {n e} := by
    simp only [AssignGraph.ofCounts, AssignGraph.outEdges, Array.getD_eq_getD_getElem?,
      Array.getElem?_replicate]
    split <;> simp
  mem_inEdges {n e} := by
    simp only [AssignGraph.ofCounts, AssignGraph.inEdges, Array.getD_eq_getD_getElem?,
      Array.getElem?_replicate]
    split <;> simp

theorem inv_start : Inv p variableIndex A (start p) where
  pts_size := size_pts_objects
  copies_size := by
    rw [← size_pts_objects]
    exact Array.size_replicate
  graph := by
    rw [start, graph_objects]
    exact graphInv_ofCounts
  objs := .refl _
  unknown := rfl
  allocObjs := rfl
  pts ho := by
    rw [nodePts_start] at ho
    exact absurd ho TreeSet.not_mem_emptyc
  flow hm := by
    rw [flow_start] at hm
    exact absurd hm TreeSet.not_mem_emptyc
  traced hm := by
    rw [flow_start] at hm
    exact absurd hm TreeSet.not_mem_emptyc
  callees hf := by
    simp only [start, calleeMap_objects, TreeMap.getD_emptyc] at hf
    exact absurd hf TreeSet.not_mem_emptyc
  spawnees hf := by
    simp only [start, spawneeMap_objects, TreeMap.getD_emptyc] at hf
    exact absurd hf TreeSet.not_mem_emptyc
  joined hf := by
    simp only [start, joinMap_objects, TreeMap.getD_emptyc] at hf
    exact absurd hf TreeSet.not_mem_emptyc
  edge he := by
    rw [start, graph_objects] at he
    exact absurd he (by simp [AssignGraph.ofCounts])

theorem debt_start : debt p (start p) = 0 := by
  have hweight : weight p (start p) = 0 := Finset.sum_eq_zero fun n _ => by rw [nodePts_start]; rfl
  have hlinks : links p (start p) = 0 := Finset.sum_eq_zero fun i _ => by
    simp only [start, calleeMap_objects, TreeMap.getD_emptyc]
    rfl
  rw [debt, hweight, hlinks]
  rfl

theorem seed_eq : seed p = p.instIds.foldl (seedInst p)
    (p.funcIds.foldl (fun s f => s.addAddress ((objects p).funcObj f) (p.func f).addr)
      ((List.range p.globals.size).foldl
        (fun s g => s.addAddress ((objects p).globalObj g) (p.global g).addr) (start p))) := rfl

/-- The seeded state is ready, and every node with objects is in its queue. -/
theorem ready_seed (hp : p.WellFormed) (hA : A.Closed p variableIndex) :
    Ready p variableIndex A (seed p) ∧
      ∀ {n o : Nat}, o ∈ (seed p).result.nodePts n → n ∈ (seed p).queue := by
  obtain ⟨hglobals, hglobal⟩ := advances_foldl (s := start p) (l := List.range p.globals.size)
    (f := fun s g => s.addAddress ((objects p).globalObj g) (p.global g).addr)
    (Q := fun s g => (objects p).globalObj g ∈ s.result.nodePts (p.global g).addr ∧
      ⟨p.values.size + (objects p).globalObj g, (p.global g).addr, .addr⟩ ∈ s.result.graph.edges)
    (fun hg h => advances_addAddress h (globalObj_lt (List.mem_range.1 hg))
      (hp.global_lt (List.mem_range.1 hg)) (hA.global (List.mem_range.1 hg)))
    (fun hext hg => hg.imp hext.pts hext.edges) inv_start
  obtain ⟨hfuncs, hfunc⟩ := advances_foldl (l := p.funcIds)
    (f := fun s f => s.addAddress ((objects p).funcObj f) (p.func f).addr)
    (Q := fun s f => (objects p).funcObj f ∈ s.result.nodePts (p.func f).addr ∧
      ⟨p.values.size + (objects p).funcObj f, (p.func f).addr, .addr⟩ ∈ s.result.graph.edges)
    (fun hf h => advances_addAddress h (funcObj_lt (List.mem_range.1 hf))
      (hp.addr_iff.1 ⟨List.mem_range.1 hf, rfl⟩).1 (hA.function (List.mem_range.1 hf)))
    (fun hext hf => hf.imp hext.pts hext.edges) hglobals.inv
  obtain ⟨hinv, hinsts, hdebt, hinst⟩ := seedInsts_spec hp hA (l := p.instIds)
    (fun i hi => List.mem_range.1 hi) hfuncs.inv
  rw [← seed_eq] at hinv hinsts hdebt hinst
  have hgrows : Grows p (start p) (seed p) := (hglobals.grows.trans hfuncs.grows).trans hinsts
  -- the start is below any assignment, even the empty one
  have hempty : Inv p variableIndex ⟨fun _ => ∅, fun _ => ∅, fun _ => ∅, fun _ => ∅, fun _ => ∅⟩
      (start p) := inv_start
  refine ⟨⟨hinv, fun hg => ?_, fun hf => ?_, fun hi => hinst _ (List.mem_range.2 hi), fun hf => ?_,
    fun hf => ?_, fun he hk => ?_, ?_⟩, fun ho => ?_⟩
  · have hext := (hfuncs.grows.trans hinsts).toExtends
    exact (hglobal _ (List.mem_range.2 hg)).imp hext.pts hext.edges
  · exact (hfunc _ (List.mem_range.2 hf)).imp hinsts.pts hinsts.edges
  · exact (hgrows.linked hf).resolve_left hempty.callees
  · exact (hgrows.started hf).resolve_left hempty.spawnees
  · refine (hgrows.joinFlow he hk).resolve_left fun he => ?_
    rw [start, graph_objects] at he
    exact absurd he (by simp [AssignGraph.ofCounts])
  · have hstart := debt_start (p := p)
    have hfirst := hglobals.debt_le
    have hsecond := hfuncs.debt_le
    have hlen : p.instIds.length = p.insts.size := List.length_range
    rw [hlen] at hdebt
    omega
  · refine (hgrows.queued ho).resolve_left fun ho => ?_
    rw [nodePts_start] at ho
    exact absurd ho TreeSet.not_mem_emptyc

end PointsTo.Solver

end DataRace
