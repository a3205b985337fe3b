import DataRace.Proofs.PointsTo.Layout
import DataRace.Proofs.PointsTo.LeastSolution

/-!
# DataRace.Proofs.PointsTo.Edges

Points-to sets and the edges of the assignment graph.

The sets are closed along the edges (`Along`), and where objects flow unchanged
along copies only, an object is in a set for a reason that the edges give:
`mem_of_induction` proves a property of all objects of all values by following
the edges that brought them there.
-/

namespace DataRace

open Std Assignment

namespace PointsTo

open Solver Program

variable {p : Program} {variableIndex : Bool} {t : PointsTo}

/-- The sets of a result are closed along the edges of its graph. -/
structure Along (variableIndex : Bool) (t : PointsTo) : Prop where
  addr : ∀ {o v : Nat}, ⟨t.graph.objNode o, v, .addr⟩ ∈ t.graph.edges → o ∈ t.nodePts v
  copy : ∀ {a b o : Nat}, ⟨a, b, .copy⟩ ∈ t.graph.edges → o ∈ t.nodePts a → o ∈ t.nodePts b
  memory : ∀ {a ptr q b o x : Nat}, ⟨a, ptr, .store⟩ ∈ t.graph.edges →
    ⟨q, b, .load⟩ ∈ t.graph.edges → o ∈ t.nodePts ptr → o ∈ t.nodePts q → x ∈ t.nodePts a →
    x ∈ t.nodePts b
  field : ∀ {a b k o x : Nat}, ⟨a, b, .field k⟩ ∈ t.graph.edges → o ∈ t.nodePts a →
    t.objs.project o k = .ok x → x ∈ t.nodePts b
  index : ∀ {a b o x : Nat}, ⟨a, b, .index⟩ ∈ t.graph.edges → o ∈ t.nodePts a →
    x ∈ indexed t.objs variableIndex o → x ∈ t.nodePts b

/-- The state that a result is taken from, judged by the result itself. -/
theorem exists_solved (hp : p.Finished) (h : analyze p variableIndex = .ok t) : ∃ s : Solver,
    s.result = t ∧ Solved p variableIndex (t.assignment.inter (full p)) s := by
  obtain ⟨s, hs, rfl⟩ := exists_of_analyze h
  have hclosed := (analyze_closed hp h).inter (closed_full hp.wellFormed)
  exact ⟨s, rfl, solved_of_analyze hp.wellFormed hclosed (bounded_inter_full p _) hs⟩

theorem indexed_eq {u v : ObjectTable} (h : u.SameBlocks v) (o : ObjId) :
    indexed v variableIndex o = indexed u variableIndex o := by
  rw [indexed, indexed, h.allFields_eq, h.baseOf_eq]

/-- The result of the analysis is closed along its edges. -/
theorem along (hp : p.Finished) (h : analyze p variableIndex = .ok t) : Along variableIndex t := by
  obtain ⟨s, rfl, hsolved⟩ := exists_solved hp h
  have hinv := hsolved.ready.inv
  have hcount := hinv.graph.valueCount
  have hmem {n o : Nat} : o ∈ (s.result.assignment.inter (full p)).node p n ↔
      o ∈ s.result.nodePts n := by
    refine ⟨fun ho => ?_, hinv.pts⟩
    unfold Assignment.node at ho
    split at ho
    · exact ho.1
    · next hlt =>
      have hcontents := hinv.mem_contents.1 ho.1
      rwa [Nat.add_sub_cancel' (Nat.le_of_not_lt hlt)] at hcontents
  constructor
  case addr =>
    intro o v he
    obtain ⟨o', heq, ho⟩ := hinv.edge he
    rw [AssignGraph.objNode, hcount] at heq
    rw [Nat.add_left_cancel heq]
    exact hmem.1 ho
  case copy => exact fun he ho => hmem.1 (hinv.edge he (hmem.2 ho))
  case memory =>
    intro a ptr q b o x hstore hload hptr hq hx
    exact hmem.1 (hinv.edge hload (hmem.2 hq) (hinv.edge hstore (hmem.2 hptr) (hmem.2 hx)))
  case field =>
    intro a b k o x he ho hx
    rw [hinv.objs.project_eq] at hx
    exact hmem.1 ((hinv.edge he).2 (hmem.2 ho) hx)
  case index =>
    intro a b o x he ho hx
    rw [indexed_eq hinv.objs] at hx
    exact hmem.1 (hinv.edge he (hmem.2 ho) hx)

/-- The edge lists of the result agree. -/
theorem graphInv (hp : p.Finished) (h : analyze p variableIndex = .ok t) : GraphInv p t.graph := by
  obtain ⟨s, rfl, hsolved⟩ := exists_solved hp h
  exact hsolved.ready.inv.graph

/-- The objects of the result lie in their blocks. -/
theorem laidAt_of_lt (hp : p.Finished) (h : analyze p variableIndex = .ok t) {o : Nat}
    (ho : o < t.objs.size) : t.objs.LaidAt o := by
  obtain ⟨s, rfl, hsolved⟩ := exists_solved hp h
  exact hsolved.ready.inv.objs.laid objects_laid o ho

/-- The sets of the result hold objects of its table. -/
theorem lt_of_mem (hp : p.Finished) (h : analyze p variableIndex = .ok t) {n o : Nat}
    (ho : o ∈ t.nodePts n) : o < t.objs.size := by
  obtain ⟨s, rfl, hsolved⟩ := exists_solved hp h
  have hinv := hsolved.ready.inv
  rw [hinv.objs.size_eq]
  exact (bounded_inter_full p _).node_lt (hinv.pts ho)

theorem laidAt_of_mem (hp : p.Finished) (h : analyze p variableIndex = .ok t) {n o : Nat}
    (ho : o ∈ t.nodePts n) : t.objs.LaidAt o :=
  laidAt_of_lt hp h (lt_of_mem hp h ho)

/-- An aggregate lies in the table as a whole. -/
theorem allFields_lt (hp : p.Finished) (h : analyze p variableIndex = .ok t) {o x : Nat}
    (ho : o < t.objs.size) (hx : x ∈ t.objs.allFields o) : x < t.objs.size := by
  obtain ⟨s, rfl, hsolved⟩ := exists_solved hp h
  have hinv := hsolved.ready.inv
  rw [hinv.objs.allFields_eq] at hx
  rw [hinv.objs.size_eq] at ho ⊢
  exact objects_valid.allFields_lt ho hx

theorem isUnknown_obj_unknown (hp : p.Finished) (h : analyze p variableIndex = .ok t) :
    (t.obj t.unknown).isUnknown = true := by
  obtain ⟨s, rfl, hsolved⟩ := exists_solved hp h
  have hinv := hsolved.ready.inv
  rw [obj, hinv.unknown, hinv.objs.isUnknown_eq]
  exact isUnknown_unknown

/-! ## following edges back -/

/-- The result of a call to code nothing is known about. -/
def Unrecognised (p : Program) (t : PointsTo) (r : ValueId) : Prop :=
  ∃ i, p.isCall i = true ∧ p.result i = some r ∧ ∃ f ∈ t.callees i,
    (p.func f).isDeclaration = true ∧ p.libraryFunc? f = none

/-- A property of objects in sets that every edge between values passes on. -/
structure Passed (p : Program) (variableIndex : Bool) (t : PointsTo) (Q : ValueId → ObjId → Prop) :
    Prop where
  addr : ∀ {o v : Nat}, ⟨t.graph.objNode o, v, .addr⟩ ∈ t.graph.edges → t.objs.IsRoot o → Q v o
  copy : ∀ {a b o : Nat}, a < p.values.size → ⟨a, b, .copy⟩ ∈ t.graph.edges → o ∈ t.of a → Q a o →
    Q b o
  memory : ∀ {a ptr q b o x : Nat}, ptr < p.values.size → q < p.values.size →
    ⟨a, ptr, .store⟩ ∈ t.graph.edges → ⟨q, b, .load⟩ ∈ t.graph.edges → o ∈ t.of ptr → o ∈ t.of q →
    x ∈ t.of a → Q a x → Q b x
  field : ∀ {a b k o x : Nat}, a < p.values.size → ⟨a, b, .field k⟩ ∈ t.graph.edges → o ∈ t.of a →
    Q a o → t.objs.project o k = .ok x → Q b x
  index : ∀ {a b o x : Nat}, a < p.values.size → ⟨a, b, .index⟩ ∈ t.graph.edges → o ∈ t.of a →
    Q a o → x ∈ indexed t.objs variableIndex o → Q b x
  unrecognised : ∀ {r : Nat}, Unrecognised p t r → Q r t.unknown

/-- The objects of a result that have a property, and what stores of them leave in memory. -/
def having (p : Program) (t : PointsTo) (Q : ValueId → ObjId → Prop) : Assignment where
  of v := {o | o ∈ t.of v ∧ Q v o}
  contents o := {x | x ∈ t.contents o ∧ ∃ a ptr, ptr < p.values.size ∧
    ⟨a, ptr, .store⟩ ∈ t.graph.edges ∧ o ∈ t.of ptr ∧ x ∈ t.of a ∧ Q a x}
  callees i := {f | f ∈ t.callees i ∧ p.isCall i = true}
  spawnees i := {f | f ∈ t.spawnees i}
  joined j := {s | s ∈ t.joinedSpawns j}

/-- The objects that have a property meet the constraints of the program, if every edge passes the
property on. -/
theorem closed_having (hp : p.Finished) (h : analyze p variableIndex = .ok t)
    (hflow : ∀ e ∈ t.graph.edges, isFlow e.kind = true → e.kind = .copy)
    {Q : ValueId → ObjId → Prop} (hQ : Passed p variableIndex t Q) :
    (having p t Q).Closed p variableIndex := by
  have hwf := hp.wellFormed
  have hclosed := analyze_closed hp h
  obtain ⟨s, rfl, hsolved⟩ := exists_solved hp h
  have hready := hsolved.ready
  have hinv := hready.inv
  have hunknown := hinv.unknown
  have hinst {i r : Nat} (hr : p.result i = some r) := hready.inst (lt_of_result hr)
  have hoperand {i v : Nat} (hv : v ∈ (p.op i).operands) : v < p.values.size := hwf.operand_lt hv
  have hnode (o : Nat) : p.values.size + o = s.result.graph.objNode o := by
    rw [AssignGraph.objNode, hinv.graph.valueCount]
  have hroot {o v : Nat} (he : ⟨p.values.size + o, v, .addr⟩ ∈ s.result.graph.edges)
      (ho : (objects p).objs.IsRoot o) : Q v o :=
    hQ.addr (hnode o ▸ he) (hinv.objs.isRoot ho)
  have hcopy {a b : Nat} (hb : b ∈ s.flow a) (ha_lt : a < p.values.size)
      (hb_lt : b < p.values.size) : (having p s.result Q).of a ⊆ (having p s.result Q).of b := by
    rintro o ⟨ho, hq⟩
    obtain ⟨k, hk, he⟩ := hinv.traced hb ha_lt hb_lt
    obtain rfl : k = .copy := hflow _ he hk
    exact ⟨hsolved.subset_of_flow hb ho, hQ.copy ha_lt he ho hq⟩
  constructor
  case global =>
    exact fun hg => ⟨hclosed.global hg, hroot (hready.global hg).2 (isRoot_globalObj hg)⟩
  case function =>
    exact fun hf => ⟨hclosed.function hf, hroot (hready.function hf).2 (isRoot_funcObj hf)⟩
  case alloc =>
    intro i heap fields r hop hr
    obtain ⟨o, ho, hmem⟩ := hclosed.alloc hop hr
    exact ⟨o, ho, hmem, hroot ((hinst hr).alloc hop hr ho).2 (isRoot_allocObj ho)⟩
  case cast =>
    intro i src r hop hr
    exact hcopy ((hinst hr).cast hop hr) (hoperand (i := i) (by simp [hop, Operation.operands]))
      (result_lt hwf hr)
  case phi =>
    intro i ins r v b hop hr hv
    refine hcopy ((hinst hr).phi hop hr hv) (hoperand (i := i) ?_) (result_lt hwf hr)
    rw [hop]
    exact List.mem_map_of_mem hv
  case load =>
    rintro i ptr r o hop hr ⟨ho, -⟩ x ⟨hx, a, ptr', hptr', hstore, ho', hxa, hq⟩
    have hptr : ptr < p.values.size := hoperand (i := i) (by simp [hop, Operation.operands])
    exact ⟨hclosed.load hop hr ho hx,
      hQ.memory hptr' hptr hstore ((hinst hr).load hop hr) ho' ho hxa hq⟩
  case store =>
    rintro i ptr val o hop ⟨ho, -⟩ x ⟨hx, hq⟩
    have he := (hready.inst (lt_of_op_ne (by simp [hop]))).store hop
    have hptr : ptr < p.values.size := hoperand (i := i) (by simp [hop, Operation.operands])
    exact ⟨hclosed.store hop ho hx, val, ptr, hptr, he, ho, hx, hq⟩
  case field =>
    rintro i base k idx r o o' hop hr ⟨ho, hq⟩ hk
    have hbase : base < p.values.size := hoperand (i := i) (by simp [hop, Operation.operands])
    exact ⟨hclosed.field hop hr ho hk,
      hQ.field hbase ((hinst hr).field hop hr) ho hq (hinv.objs.project_eq o k ▸ hk)⟩
  case index =>
    rintro i base idx r o o' hop hr ⟨ho, hq⟩ hk
    have hbase : base < p.values.size := hoperand (i := i) (by simp [hop, Operation.operands])
    exact ⟨hclosed.index hop hr ho hk,
      hQ.index hbase ((hinst hr).index hop hr) ho hq (indexed_eq hinv.objs o ▸ hk)⟩
  case direct => exact fun hf => ⟨hclosed.direct hf, isCall_of_directCallee hf⟩
  case indirect =>
    exact fun hop ho hf => ⟨hclosed.indirect hop ho.1 hf, by rw [isCall, hop]; rfl⟩
  case argument =>
    intro i f a q hf hd hq
    exact hcopy ((hready.linked (mem_callees.1 hf.1)).argument hd hq)
      (callArgs_lt hwf (List.of_mem_zip hq).1) (hwf.param_lt (List.of_mem_zip hq).2)
  case returned =>
    intro i f v r hf hd hv hr
    exact hcopy ((hready.linked (mem_callees.1 hf.1)).returned hd hv hr) (returned_lt hwf hv)
      (result_lt hwf hr)
  case unrecognised =>
    intro i f r hf hd hlib hr
    refine ⟨hclosed.unrecognised hf.1 hd hlib hr, ?_⟩
    rw [← hunknown]
    exact hQ.unrecognised ⟨i, hf.2, hr, f, hf.1, hd, hlib⟩
  case start => exact fun hi hv ho hf => hclosed.start hi hv ho.1 hf
  case startArgument =>
    intro i f a q qs hf hd ha hq
    exact hcopy (hready.started (mem_spawnees.1 hf) hd ha hq) (entryArg_lt hwf ha)
      (hwf.param_lt (hq ▸ List.mem_cons_self))
  case join =>
    intro j i ptr r tid hj hi hptr hr htid halias
    have halias' : s.result.mayAlias ptr tid = true := by
      rw [mayAlias_iff, hunknown]
      exact MayAlias.mono (A := having p s.result Q) (fun _ ho => ho.1) (fun _ ho => ho.1) halias
    obtain ⟨hjoined, hflows⟩ := hsolved.matched hj hi hptr hr htid halias'
    exact ⟨mem_joined.2 hjoined, fun hf hv =>
      hcopy (hflows (mem_spawnees.1 hf) hv) (returned_lt hwf hv) (result_lt hwf hr)⟩

/-- **Every object in a set has a property** that all edges pass on, if copies are the only edges
along which objects flow unchanged. -/
theorem mem_of_induction (hp : p.Finished) (h : analyze p variableIndex = .ok t)
    (hflow : ∀ e ∈ t.graph.edges, isFlow e.kind = true → e.kind = .copy)
    {Q : ValueId → ObjId → Prop} (hQ : Passed p variableIndex t Q) {v o : Nat}
    (hv : v < p.values.size) (ho : o ∈ t.of v) : Q v o :=
  ((analyze_within hp h (closed_having hp h hflow hQ)).of hv ho).2

end PointsTo

end DataRace
