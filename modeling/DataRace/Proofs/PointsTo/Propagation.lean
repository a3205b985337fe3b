import DataRace.Proofs.PointsTo.Constraints
import Mathlib.Algebra.BigOperators.Group.Finset.Basic
import Mathlib.Algebra.Order.BigOperators.Group.Finset

/-!
# DataRace.Proofs.PointsTo.Propagation

What the operations of the solver do to its state.

Three things are tracked for every operation, and `Advances` holds them
together:

* `Inv`: the state has the dimensions of the program and is below a closed
  assignment, so nothing is recorded that does not follow;
* `Grows`: the state only grows, and whatever a growth leaves undone is in the
  queue;
* `debt`: a node enters the queue only when a set grows or a call is linked.
-/

namespace DataRace

open Std Assignment

/-- The objects that a node of the assignment graph may point to. -/
def Assignment.node (p : Program) (A : Assignment) (n : Nat) : Set ObjId :=
  if n < p.values.size then A.of n else A.contents (n - p.values.size)

theorem Assignment.node_value {p : Program} {A : Assignment} {v : Nat} (h : v < p.values.size) :
    A.node p v = A.of v := if_pos h

theorem Assignment.node_object {p : Program} {A : Assignment} (o : Nat) :
    A.node p (p.values.size + o) = A.contents o := by
  rw [Assignment.node, if_neg (by omega), Nat.add_sub_cancel_left]

/-- No more than the greatest assignment. -/
structure Assignment.Bounded (p : Program) (A : Assignment) : Prop where
  of : ∀ v, A.of v ⊆ (full p).of v
  contents : ∀ o, A.contents o ⊆ (full p).contents o
  callees : ∀ i, A.callees i ⊆ (full p).callees i
  spawnees : ∀ i, A.spawnees i ⊆ (full p).spawnees i

theorem Assignment.bounded_inter_full (p : Program) (A : Assignment) :
    (A.inter (full p)).Bounded p :=
  ⟨fun _ => Set.inter_subset_right, fun _ => Set.inter_subset_right,
    fun _ => Set.inter_subset_right, fun _ => Set.inter_subset_right⟩

theorem Assignment.Bounded.node_lt {p : Program} {A : Assignment} (h : A.Bounded p) {n o : Nat}
    (ho : o ∈ A.node p n) : o < (PointsTo.Solver.objects p).objs.size := by
  unfold Assignment.node at ho
  split at ho
  · exact (h.of n ho).1
  · exact h.contents _ ho

namespace PointsTo.Solver

/-- The number of nodes of the assignment graph: values, then objects. -/
def nodeCount (p : Program) : Nat := p.values.size + (objects p).objs.size

/-- Where the objects of a node flow on to. -/
def flow (s : Solver) (n : NodeId) : IdSet := s.copies.getD n ∅

/-! ## the invariant -/

/-- The edge lists of a graph agree, and its edges are between nodes. -/
structure GraphInv (p : Program) (g : AssignGraph) : Prop where
  valueCount : g.valueCount = p.values.size
  outgoing_size : g.outgoing.size = nodeCount p
  incoming_size : g.incoming.size = nodeCount p
  nodup : g.edges.toList.Nodup
  lt : ∀ {e : Edge}, e ∈ g.edges → e.src < nodeCount p ∧ e.dst < nodeCount p
  mem_outEdges : ∀ {n e}, e ∈ g.outEdges n ↔ e ∈ g.edges ∧ e.src = n
  mem_inEdges : ∀ {n e}, e ∈ g.inEdges n ↔ e ∈ g.edges ∧ e.dst = n

/-- Objects flow unchanged along an edge. -/
def isFlow : EdgeKind → Bool
  | .copy | .call _ | .ret _ | .fork _ | .join _ => true
  | _ => false

/-- What an edge of the assignment graph says holds of an assignment.  A projection by a constant
is one of the program, and a join edge leads from the returned value of a routine to the result of a
join. -/
def Justified (p : Program) (variableIndex : Bool) (A : Assignment) (e : Edge) : Prop :=
  match e.kind with
  | .addr => ∃ o, e.src = p.values.size + o ∧ o ∈ A.node p e.dst
  | .copy => A.node p e.src ⊆ A.node p e.dst
  | .load => ∀ {o}, o ∈ A.node p e.src → A.contents o ⊆ A.node p e.dst
  | .store => ∀ {o}, o ∈ A.node p e.dst → A.node p e.src ⊆ A.contents o
  | .field k => (∃ i idx, p.op i = .project e.src (some k) idx) ∧
      ∀ {o o'}, o ∈ A.node p e.src → (objects p).objs.project o k = .ok o' → o' ∈ A.node p e.dst
  | .index => ∀ {o o'}, o ∈ A.node p e.src → o' ∈ indexed (objects p).objs variableIndex o →
      o' ∈ A.node p e.dst
  | .join s => ∃ j < p.insts.size, s < p.insts.size ∧ ∃ f < p.funcs.size,
      returned? p f = some e.src ∧ p.result j = some e.dst
  | _ => True

/-- The state has the dimensions of the program, and everything it records is in the assignment. -/
structure Inv (p : Program) (variableIndex : Bool) (A : Assignment) (s : Solver) : Prop where
  pts_size : s.result.pts.size = nodeCount p
  copies_size : s.copies.size = nodeCount p
  graph : GraphInv p s.result.graph
  objs : (objects p).objs.SameBlocks s.result.objs
  unknown : s.result.unknown = (objects p).unknown
  allocObjs : s.result.allocObjs = (objects p).allocObjs
  pts : ∀ {n o : Nat}, o ∈ s.result.nodePts n → o ∈ A.node p n
  flow : ∀ {n m : Nat}, m ∈ s.flow n → m < nodeCount p ∧ A.node p n ⊆ A.node p m
  /-- A flow between values is an edge. -/
  traced : ∀ {n m : Nat}, m ∈ s.flow n → n < p.values.size → m < p.values.size →
    ∃ k, isFlow k = true ∧ ⟨n, m, k⟩ ∈ s.result.graph.edges
  callees : ∀ {i f : Nat}, f ∈ s.result.calleeMap.getD i ∅ → f ∈ A.callees i
  spawnees : ∀ {i f : Nat}, f ∈ s.result.spawneeMap.getD i ∅ → f ∈ A.spawnees i
  joined : ∀ {j i : Nat}, i ∈ s.result.joinMap.getD j ∅ → i ∈ A.joined j
  edge : ∀ {e : Edge}, e ∈ s.result.graph.edges → Justified p variableIndex A e

/-! ## growth -/

/-- All that follows from a call that reaches a function is recorded. -/
structure CallLinked (p : Program) (s : Solver) (i f : Nat) : Prop where
  argument : (p.func f).isDeclaration = false → ∀ {a q : Nat},
    (a, q) ∈ (p.callArgs i).zip (p.func f).params → q ∈ s.flow a
  returned : (p.func f).isDeclaration = false → ∀ {v r : Nat},
    returned? p f = some v → p.result i = some r → r ∈ s.flow v
  unrecognised : (p.func f).isDeclaration = true → p.libraryFunc? f = none → ∀ {r : Nat},
    p.result i = some r → (objects p).unknown ∈ s.result.nodePts r
  /-- A thread start is a site, and a routine it names is started. -/
  start : p.libraryFunc? f = some .spawn ∨ p.libraryFunc? f = some .parallelFor →
    i ∈ s.result.spawneeMap ∧ ∀ {v g : Nat}, p.routine i = some v → p.asFunction v = some g →
      g ∈ s.result.spawneeMap.getD i ∅

/-- All that follows from a thread start that runs a routine is recorded. -/
def StartLinked (p : Program) (s : Solver) (i f : Nat) : Prop :=
  (p.func f).isDeclaration = false → ∀ {a q : Nat} {qs : List Nat},
    p.routineArg i = some a → (p.func f).params = q :: qs → q ∈ s.flow a

/-- The state after an operation has all that was there before, and everything new is linked. -/
structure Extends (p : Program) (s s' : Solver) : Prop where
  pts : ∀ {n o : Nat}, o ∈ s.result.nodePts n → o ∈ s'.result.nodePts n
  flow : ∀ {n m : Nat}, m ∈ s.flow n → m ∈ s'.flow n
  callees : ∀ {i f : Nat}, f ∈ s.result.calleeMap.getD i ∅ → f ∈ s'.result.calleeMap.getD i ∅
  spawnees : ∀ {i f : Nat}, f ∈ s.result.spawneeMap.getD i ∅ → f ∈ s'.result.spawneeMap.getD i ∅
  sites : ∀ {i : Nat}, i ∈ s.result.spawneeMap → i ∈ s'.result.spawneeMap
  joined : ∀ {j i : Nat}, i ∈ s.result.joinMap.getD j ∅ → i ∈ s'.result.joinMap.getD j ∅
  edges : ∀ {e : Edge}, e ∈ s.result.graph.edges → e ∈ s'.result.graph.edges
  linked : ∀ {i f : Nat}, f ∈ s'.result.calleeMap.getD i ∅ →
    f ∈ s.result.calleeMap.getD i ∅ ∨ CallLinked p s' i f
  started : ∀ {i f : Nat}, f ∈ s'.result.spawneeMap.getD i ∅ →
    f ∈ s.result.spawneeMap.getD i ∅ ∨ StartLinked p s' i f
  joinFlow : ∀ {e : Edge} {i : InstId}, e ∈ s'.result.graph.edges → e.kind = .join i →
    e ∈ s.result.graph.edges ∨ e.dst ∈ s'.flow e.src

/-- A node whose set or flow has grown is in the queue, unless the flow is done. -/
structure Grows (p : Program) (s s' : Solver) : Prop extends Extends p s s' where
  queue : ∀ {n : Nat}, n ∈ s.queue → n ∈ s'.queue
  queued : ∀ {n o : Nat}, o ∈ s'.result.nodePts n → o ∈ s.result.nodePts n ∨ n ∈ s'.queue
  flowed : ∀ {n m : Nat}, m ∈ s'.flow n →
    m ∈ s.flow n ∨ n ∈ s'.queue ∨ ∀ {o : Nat}, o ∈ s'.result.nodePts n → o ∈ s'.result.nodePts m

section growth

variable {p : Program} {s s' s'' : Solver}

theorem CallLinked.mono (h : Extends p s s') {i f : Nat} (hc : CallLinked p s i f) :
    CallLinked p s' i f where
  argument hd _ _ hq := h.flow (hc.argument hd hq)
  returned hd _ _ hv hr := h.flow (hc.returned hd hv hr)
  unrecognised hd hl _ hr := h.pts (hc.unrecognised hd hl hr)
  start hl := ⟨h.sites (hc.start hl).1, fun hv hg => h.spawnees ((hc.start hl).2 hv hg)⟩

theorem StartLinked.mono (h : Extends p s s') {i f : Nat} (hs : StartLinked p s i f) :
    StartLinked p s' i f :=
  fun hd _ _ _ ha hq => h.flow (hs hd ha hq)

/-- A state whose sets and flows grow and whose other records are the same. -/
theorem Extends.of_sets (hcallees : s'.result.calleeMap = s.result.calleeMap)
    (hspawnees : s'.result.spawneeMap = s.result.spawneeMap)
    (hjoined : s'.result.joinMap = s.result.joinMap) (hgraph : s'.result.graph = s.result.graph)
    (pts : ∀ {n o : Nat}, o ∈ s.result.nodePts n → o ∈ s'.result.nodePts n)
    (flow : ∀ {n m : Nat}, m ∈ s.flow n → m ∈ s'.flow n) : Extends p s s' where
  pts := pts
  flow := flow
  callees := hcallees ▸ id
  spawnees := hspawnees ▸ id
  sites := hspawnees ▸ id
  joined := hjoined ▸ id
  edges := hgraph ▸ id
  linked hf := .inl (hcallees ▸ hf)
  started hf := .inl (hspawnees ▸ hf)
  joinFlow he _ := .inl (hgraph ▸ he)

/-- A state with the same records. -/
theorem Extends.of_eq (hpts : s'.result.pts = s.result.pts) (hflow : s'.copies = s.copies)
    (hcallees : s'.result.calleeMap = s.result.calleeMap)
    (hspawnees : s'.result.spawneeMap = s.result.spawneeMap)
    (hjoined : s'.result.joinMap = s.result.joinMap)
    (hgraph : s'.result.graph = s.result.graph) : Extends p s s' := by
  refine .of_sets hcallees hspawnees hjoined hgraph (fun ho => ?_) (fun hm => ?_)
  · rwa [nodePts, hpts]
  · rwa [Solver.flow, hflow]

theorem Extends.refl (s : Solver) : Extends p s s := .of_eq rfl rfl rfl rfl rfl rfl

theorem Extends.trans (h : Extends p s s') (h' : Extends p s' s'') : Extends p s s'' where
  pts ho := h'.pts (h.pts ho)
  flow hm := h'.flow (h.flow hm)
  callees hf := h'.callees (h.callees hf)
  spawnees hf := h'.spawnees (h.spawnees hf)
  sites hi := h'.sites (h.sites hi)
  joined hi := h'.joined (h.joined hi)
  edges he := h'.edges (h.edges he)
  linked hf := (h'.linked hf).elim (fun hf => (h.linked hf).imp_right (·.mono h')) .inr
  started hf := (h'.started hf).elim (fun hf => (h.started hf).imp_right (·.mono h')) .inr
  joinFlow he hk := (h'.joinFlow he hk).elim
    (fun he => (h.joinFlow he hk).imp_right fun hf => h'.flow hf) .inr

theorem Grows.refl (s : Solver) : Grows p s s :=
  { Extends.refl s with queue := id, queued := .inl, flowed := .inl }

/-- An operation on sets and flows alone. -/
theorem Grows.of_sets (hcallees : s'.result.calleeMap = s.result.calleeMap)
    (hspawnees : s'.result.spawneeMap = s.result.spawneeMap)
    (hjoined : s'.result.joinMap = s.result.joinMap) (hgraph : s'.result.graph = s.result.graph)
    (pts : ∀ {n o : Nat}, o ∈ s.result.nodePts n → o ∈ s'.result.nodePts n)
    (flow : ∀ {n m : Nat}, m ∈ s.flow n → m ∈ s'.flow n)
    (queue : ∀ {n : Nat}, n ∈ s.queue → n ∈ s'.queue)
    (queued : ∀ {n o : Nat}, o ∈ s'.result.nodePts n → o ∈ s.result.nodePts n ∨ n ∈ s'.queue)
    (flowed : ∀ {n m : Nat}, m ∈ s'.flow n → m ∈ s.flow n ∨ n ∈ s'.queue ∨
      ∀ {o : Nat}, o ∈ s'.result.nodePts n → o ∈ s'.result.nodePts m) : Grows p s s' where
  toExtends := .of_sets hcallees hspawnees hjoined hgraph pts flow
  queue := queue
  queued := queued
  flowed := flowed

theorem Grows.trans (h : Grows p s s') (h' : Grows p s' s'') : Grows p s s'' where
  toExtends := h.toExtends.trans h'.toExtends
  queue hn := h'.queue (h.queue hn)
  queued ho := (h'.queued ho).elim (fun ho => (h.queued ho).imp_right h'.queue) .inr
  flowed {n m} hm := by
    obtain hm | hq | hdone := h'.flowed hm
    · obtain hm | hq | hdone := h.flowed hm
      · exact .inl hm
      · exact .inr (.inl (h'.queue hq))
      · -- the node may have grown again since its flow was done
        by_cases hq : n ∈ s''.queue
        · exact .inr (.inl hq)
        · refine .inr (.inr fun ho => h'.pts (hdone ?_))
          exact (h'.queued ho).resolve_right hq
    · exact .inr (.inl hq)
    · exact .inr (.inr hdone)

end growth

/-! ## debt -/

/-- The number of objects in all sets. -/
def weight (p : Program) (s : Solver) : Nat :=
  ∑ n ∈ Finset.range (nodeCount p), (s.result.nodePts n).size

/-- The number of calls that are linked. -/
def links (p : Program) (s : Solver) : Nat :=
  ∑ i ∈ Finset.range p.insts.size, (s.result.calleeMap.getD i ∅).size

/-- How much longer the queue is than what the sets and links account for. -/
def debt (p : Program) (s : Solver) : Int := s.queue.length - weight p s - links p s

/-- What an operation on a state below `A` leads to. -/
structure Advances (p : Program) (variableIndex : Bool) (A : Assignment)
    (s s' : Solver) : Prop where
  inv : Inv p variableIndex A s'
  grows : Grows p s s'
  debt_le : debt p s' ≤ debt p s

section operations

variable {p : Program} {variableIndex : Bool} {A : Assignment} {s s' s'' : Solver}

theorem Advances.trans (h : Advances p variableIndex A s s')
    (h' : Advances p variableIndex A s' s'') : Advances p variableIndex A s s'' :=
  ⟨h'.inv, h.grows.trans h'.grows, Int.le_trans h'.debt_le h.debt_le⟩

theorem Inv.advances_refl (h : Inv p variableIndex A s) : Advances p variableIndex A s s :=
  ⟨h, .refl s, Int.le_refl _⟩

/-! ## growing a set -/

theorem mem_queue_enqueue {n m : Nat} : m ∈ (s.enqueue n).queue ↔ m ∈ s.queue ∨ m = n := by
  unfold enqueue
  split
  · next h => exact ⟨.inl, fun hm => hm.elim id fun heq => heq ▸ List.contains_iff_mem.1 h⟩
  · simp

theorem result_enqueue (n : Nat) : (s.enqueue n).result = s.result := by
  unfold enqueue
  split <;> rfl

theorem copies_enqueue (n : Nat) : (s.enqueue n).copies = s.copies := by
  unfold enqueue
  split <;> rfl

theorem flow_enqueue (n m : Nat) : (s.enqueue n).flow m = s.flow m := by
  rw [flow, copies_enqueue, flow]

theorem length_queue_enqueue (n : Nat) : (s.enqueue n).queue.length ≤ s.queue.length + 1 := by
  unfold enqueue
  split <;> simp

/-- The state with another set at a node. -/
def setPts (s : Solver) (n : NodeId) (set : IdSet) : Solver :=
  { s with result.pts := s.result.pts.setIfInBounds n set }

theorem nodePts_setPts {n m : Nat} {set : IdSet} (hn : n < s.result.pts.size) :
    (s.setPts n set).result.nodePts m = if m = n then set else s.result.nodePts m := by
  simp only [setPts, nodePts, Array.getD_eq_getD_getElem?, Array.getElem?_setIfInBounds]
  grind

theorem weight_setPts {n : Nat} {set : IdSet} (hsize : s.result.pts.size = nodeCount p)
    (hn : n < nodeCount p) (hlt : (s.result.nodePts n).size < set.size) :
    weight p s < weight p (s.setPts n set) := by
  refine Finset.sum_lt_sum (fun m _ => ?_) ⟨n, Finset.mem_range.2 hn, ?_⟩
  · rw [nodePts_setPts (hsize ▸ hn)]
    split
    · next heq => exact heq ▸ Nat.le_of_lt hlt
    · exact Nat.le_refl _
  · rwa [nodePts_setPts (hsize ▸ hn), if_pos rfl]

/-- A set grows by objects that the assignment has there. -/
theorem mem_nodePts_grow {n m o : Nat} {l : List ObjId} (hn : n < s.result.pts.size) :
    o ∈ (s.grow n l).result.nodePts m ↔ o ∈ s.result.nodePts m ∨ m = n ∧ o ∈ l := by
  simp only [grow]
  split
  · next h =>
    refine ⟨.inl, fun ho => ho.elim id fun ⟨hm, ho⟩ => ?_⟩
    exact hm ▸ IdSet.mem_of_size_foldl_insert h o ho
  · rw [result_enqueue]
    change o ∈ (s.setPts n _).result.nodePts m ↔ _
    rw [nodePts_setPts hn]
    split
    · next heq =>
      subst heq
      rw [IdSet.mem_foldl_insert]
      simp
    · next hne => simp [hne]

theorem Inv.setPts (h : Inv p variableIndex A s) {n : Nat} {set : IdSet} (hn : n < nodeCount p)
    (hset : ∀ {o : Nat}, o ∈ set → o ∈ A.node p n) : Inv p variableIndex A (s.setPts n set) :=
  { h with
    pts_size := by rw [← h.pts_size]; exact Array.size_setIfInBounds
    pts := by
      intro m o ho
      rw [nodePts_setPts (h.pts_size ▸ hn)] at ho
      split at ho
      · next heq => exact heq ▸ hset ho
      · exact h.pts ho }

theorem Inv.enqueue (h : Inv p variableIndex A s) (n : Nat) :
    Inv p variableIndex A (s.enqueue n) := by
  unfold Solver.enqueue
  split
  · exact h
  · exact { h with }

theorem grows_enqueue (n : Nat) : Grows p s (s.enqueue n) := by
  unfold Solver.enqueue
  split
  · exact .refl s
  · exact .of_sets rfl rfl rfl rfl id id (List.mem_append_left _) .inl .inl

theorem debt_enqueue (n : Nat) : debt p (s.enqueue n) ≤ debt p s + 1 := by
  have hlen := length_queue_enqueue (s := s) n
  simp only [debt, weight, links, result_enqueue]
  omega

/-- Growing a set changes nothing, or enlarges it and puts the node in the queue. -/
theorem grow_eq (s : Solver) (n : Nat) (os : List ObjId) : s.grow n os = s ∨
    (s.result.nodePts n).size < (os.foldl (·.insert ·) (s.result.nodePts n)).size ∧
      s.grow n os = (s.setPts n (os.foldl (·.insert ·) (s.result.nodePts n))).enqueue n := by
  have hle := IdSet.size_le_size_foldl_insert os (s.result.nodePts n)
  simp only [grow]
  split
  · exact .inl rfl
  · next hne => exact .inr ⟨Nat.lt_of_le_of_ne hle (Ne.symm hne), rfl⟩

theorem advances_grow (h : Inv p variableIndex A s) {n : Nat} {l : List ObjId}
    (hn : n < nodeCount p) (hos : ∀ o ∈ l, o ∈ A.node p n) :
    Advances p variableIndex A s (s.grow n l) := by
  have hpts {m o : Nat} := mem_nodePts_grow (s := s) (l := l) (m := m) (o := o) (h.pts_size ▸ hn)
  obtain heq | ⟨hlt, heq⟩ := grow_eq s n l
  · rw [heq]
    exact h.advances_refl
  · rw [heq] at hpts ⊢
    generalize l.foldl (·.insert ·) (s.result.nodePts n) = set at *
    constructor
    case inv =>
      refine (h.setPts hn fun {o} ho => ?_).enqueue n
      have hmem := (hpts (m := n) (o := o)).1 (by
        rw [result_enqueue, nodePts_setPts (h.pts_size ▸ hn), if_pos rfl]
        exact ho)
      exact hmem.elim h.pts fun ho => hos o ho.2
    case grows =>
      refine .of_sets ?_ ?_ ?_ ?_ (fun ho => hpts.2 (.inl ho)) ?_ ?_ ?_ ?_
      · rw [result_enqueue]; rfl
      · rw [result_enqueue]; rfl
      · rw [result_enqueue]; rfl
      · rw [result_enqueue]; rfl
      · exact fun hm => (flow_enqueue ..).symm ▸ hm
      · exact fun hm => mem_queue_enqueue.2 (.inl hm)
      · exact fun ho => (hpts.1 ho).imp_right fun hm => mem_queue_enqueue.2 (.inr hm.1)
      · exact fun hm => .inl (flow_enqueue (s := s.setPts n set) .. ▸ hm)
    case debt_le =>
      have hw := weight_setPts h.pts_size hn hlt
      have hset : debt p (s.setPts n set) + 1 ≤ debt p s := by
        change (s.queue.length : Int) - weight p (s.setPts n set) - links p s + 1 ≤ _
        rw [debt]
        omega
      exact Int.le_trans (debt_enqueue n) hset

theorem flow_grow (n m : Nat) (os : List ObjId) : (s.grow n os).flow m = s.flow m := by
  obtain heq | ⟨-, heq⟩ := grow_eq s n os
  · rw [heq]
  · rw [heq, flow_enqueue]
    rfl

/-! ## adding a flow -/

/-- The state with another set of flows at a node. -/
def setFlow (s : Solver) (n : NodeId) (set : IdSet) : Solver :=
  { s with copies := s.copies.setIfInBounds n set }

theorem flow_setFlow {n m : Nat} {t : IdSet} (hn : n < s.copies.size) :
    (s.setFlow n t).flow m = if m = n then t else s.flow m := by
  simp only [setFlow, flow, Array.getD_eq_getD_getElem?, Array.getElem?_setIfInBounds]
  grind

theorem Inv.setFlow (h : Inv p variableIndex A s) {src dst : Nat} (hsrc : src < nodeCount p)
    (hdst : dst < nodeCount p) (hsub : A.node p src ⊆ A.node p dst)
    (hedge : src < p.values.size → dst < p.values.size →
      ∃ k, isFlow k = true ∧ ⟨src, dst, k⟩ ∈ s.result.graph.edges) :
    Inv p variableIndex A (s.setFlow src ((s.flow src).insert dst)) :=
  { h with
    copies_size := by rw [← h.copies_size]; exact Array.size_setIfInBounds
    flow := by
      intro n m hm
      rw [flow_setFlow (h.copies_size ▸ hsrc)] at hm
      split at hm
      · next heq =>
        subst heq
        rw [IdSet.mem_insert] at hm
        obtain rfl | hm := hm
        · exact ⟨hdst, hsub⟩
        · exact h.flow hm
      · exact h.flow hm
    traced := by
      intro n m hm
      rw [flow_setFlow (h.copies_size ▸ hsrc)] at hm
      split at hm
      · next heq =>
        subst heq
        obtain rfl | hm := IdSet.mem_insert.1 hm
        · exact hedge
        · exact h.traced hm
      · exact h.traced hm }

theorem addCopy_eq (s : Solver) (src dst : Nat) : s.addCopy src dst =
    if (s.flow src).contains dst then s
    else (s.setFlow src ((s.flow src).insert dst)).grow dst (s.result.nodePts src).toList := rfl

/-- The objects of a node flow on, now and later. -/
theorem advances_addCopy (h : Inv p variableIndex A s) {src dst : Nat} (hsrc : src < nodeCount p)
    (hdst : dst < nodeCount p) (hsub : A.node p src ⊆ A.node p dst)
    (hedge : src < p.values.size → dst < p.values.size →
      ∃ k, isFlow k = true ∧ ⟨src, dst, k⟩ ∈ s.result.graph.edges) :
    Advances p variableIndex A s (s.addCopy src dst) ∧ dst ∈ (s.addCopy src dst).flow src := by
  rw [addCopy_eq]
  split
  · next hmem => exact ⟨h.advances_refl, TreeSet.contains_iff_mem.1 hmem⟩
  · have hflow {n : Nat} := flow_setFlow (s := s) (m := n) (t := (s.flow src).insert dst)
      (h.copies_size ▸ hsrc)
    have hset := h.setFlow hsrc hdst hsub hedge
    have hgrow := advances_grow hset (l := (s.result.nodePts src).toList) hdst
      fun o ho => hsub (h.pts (TreeSet.mem_toList.1 ho))
    have hpts {m o : Nat} := mem_nodePts_grow (s := s.setFlow src ((s.flow src).insert dst))
      (l := (s.result.nodePts src).toList) (m := m) (o := o) (hset.pts_size ▸ hdst)
    have hflow' {n : Nat} := flow_grow (s := s.setFlow src ((s.flow src).insert dst)) dst n
      (s.result.nodePts src).toList
    have hg := hgrow.grows
    refine ⟨⟨hgrow.inv, ?_, hgrow.debt_le⟩, ?_⟩
    · refine { hg with flow := ?_, flowed := ?_ }
      · intro n m hm
        rw [hflow', hflow]
        split
        · next heq => exact IdSet.mem_insert.2 (.inr (heq ▸ hm))
        · exact hm
      · intro n m hm
        rw [hflow', hflow] at hm
        split at hm
        · next heq =>
          subst heq
          obtain rfl | hm := IdSet.mem_insert.1 hm
          · refine .inr (.inr fun ho => hpts.2 (.inr ⟨rfl, ?_⟩))
            exact (hpts.1 ho).elim (fun ho => TreeSet.mem_toList.2 ho) And.right
          · exact .inl hm
        · exact .inl hm
    · rw [hflow', hflow, if_pos rfl]
      exact IdSet.mem_insert.2 (.inl rfl)

/-! ## adding an edge -/

theorem mem_edges_insert {g : AssignGraph} (hg : GraphInv p g) {e e' : Edge} :
    e' ∈ (g.insert e).edges ↔ e' ∈ g.edges ∨ e' = e := by
  unfold AssignGraph.insert
  split
  · next hmem =>
    refine ⟨.inl, fun he => he.elim id fun heq => ?_⟩
    exact heq ▸ (hg.mem_outEdges.1 (List.contains_iff_mem.1 hmem)).1
  · exact Array.mem_push

theorem GraphInv.insert {g : AssignGraph} (hg : GraphInv p g) {e : Edge}
    (hsrc : e.src < nodeCount p) (hdst : e.dst < nodeCount p) : GraphInv p (g.insert e) := by
  unfold AssignGraph.insert
  split
  · exact hg
  · next hnot =>
    have hnew : e ∉ g.edges := fun hmem =>
      hnot (List.contains_iff_mem.2 (hg.mem_outEdges.2 ⟨hmem, rfl⟩))
    have hout {n : Nat} : (g.outgoing.modify e.src (· ++ [e])).getD n [] =
        if e.src = n ∧ e.src < g.outgoing.size then g.outEdges n ++ [e] else g.outEdges n :=
      Table.getD_modify ..
    have hin {n : Nat} : (g.incoming.modify e.dst (· ++ [e])).getD n [] =
        if e.dst = n ∧ e.dst < g.incoming.size then g.inEdges n ++ [e] else g.inEdges n :=
      Table.getD_modify ..
    rw [hg.outgoing_size] at hout
    rw [hg.incoming_size] at hin
    constructor
    case valueCount => exact hg.valueCount
    case outgoing_size => rw [← hg.outgoing_size]; exact Array.size_modify ..
    case incoming_size => rw [← hg.incoming_size]; exact Array.size_modify ..
    case nodup =>
      rw [Array.toList_push, List.nodup_append]
      refine ⟨hg.nodup, List.nodup_singleton e, fun a ha b hb heq => hnew ?_⟩
      rw [← List.mem_singleton.1 hb, ← heq]
      exact Array.mem_toList_iff.1 ha
    case lt =>
      intro e' he'
      obtain he' | rfl := Array.mem_push.1 he'
      · exact hg.lt he'
      · exact ⟨hsrc, hdst⟩
    case mem_outEdges =>
      intro n e'
      have hmem := hg.mem_outEdges (n := n) (e := e')
      rw [AssignGraph.outEdges, hout, Array.mem_push]
      grind
    case mem_inEdges =>
      intro n e'
      have hmem := hg.mem_inEdges (n := n) (e := e')
      rw [AssignGraph.inEdges, hin, Array.mem_push]
      grind

theorem Inv.addEdge (h : Inv p variableIndex A s) {src dst : Nat} {kind : EdgeKind}
    (hsrc : src < nodeCount p) (hdst : dst < nodeCount p)
    (hj : Justified p variableIndex A ⟨src, dst, kind⟩) :
    Inv p variableIndex A (s.addEdge src dst kind) :=
  { h with
    graph := h.graph.insert hsrc hdst
    traced := fun hm hn hm' => by
      obtain ⟨k, hk, he⟩ := h.traced hm hn hm'
      exact ⟨k, hk, (mem_edges_insert h.graph).2 (.inl he)⟩
    edge := fun he => (mem_edges_insert h.graph).1 he |>.elim h.edge fun heq => heq ▸ hj }

/-- An edge that is no join says nothing about the queue. -/
theorem advances_addEdge (h : Inv p variableIndex A s) {src dst : Nat} {k : EdgeKind}
    (hsrc : src < nodeCount p) (hdst : dst < nodeCount p)
    (hj : Justified p variableIndex A ⟨src, dst, k⟩) (hkind : ∀ i, k ≠ .join i) :
    Advances p variableIndex A s (s.addEdge src dst k) ∧
      ⟨src, dst, k⟩ ∈ (s.addEdge src dst k).result.graph.edges where
  left :=
    { inv := h.addEdge hsrc hdst hj
      grows :=
        { pts := id, flow := id, callees := id, spawnees := id, sites := id, joined := id
          edges := fun he => (mem_edges_insert h.graph).2 (.inl he)
          linked := .inl
          started := .inl
          queue := id
          queued := .inl
          flowed := .inl
          joinFlow := fun he hk => (mem_edges_insert h.graph).1 he |>.imp_right fun heq => by
            subst heq
            exact absurd hk (hkind _) }
      debt_le := Int.le_refl _ }
  right := (mem_edges_insert h.graph).2 (.inr rfl)

/-- An edge along which objects flow unchanged. -/
theorem advances_addFlow (h : Inv p variableIndex A s) {src dst : Nat} {k : EdgeKind}
    (hsrc : src < nodeCount p) (hdst : dst < nodeCount p) (hsub : A.node p src ⊆ A.node p dst)
    (hj : Justified p variableIndex A ⟨src, dst, k⟩) (hk : isFlow k = true) :
    Advances p variableIndex A s (s.addFlow src dst k) ∧ dst ∈ (s.addFlow src dst k).flow src := by
  obtain ⟨hadv, hmem⟩ := advances_addCopy (h.addEdge hsrc hdst hj) hsrc hdst hsub
    fun _ _ => ⟨k, hk, (mem_edges_insert h.graph).2 (.inr rfl)⟩
  refine ⟨⟨hadv.inv, ?_, hadv.debt_le⟩, hmem⟩
  have hg := hadv.grows
  refine { hg with edges := ?_, joinFlow := ?_ }
  · exact fun he => hg.edges ((mem_edges_insert h.graph).2 (.inl he))
  · intro e i he hk
    obtain he | hf := hg.joinFlow he hk
    · refine ((mem_edges_insert h.graph).1 he).imp_right fun heq => ?_
      subst heq
      exact hmem
    · exact .inr hf

theorem advances_addAddress (h : Inv p variableIndex A s) {o v : Nat}
    (ho : o < (objects p).objs.size) (hv : v < p.values.size) (hmem : o ∈ A.of v) :
    Advances p variableIndex A s (s.addAddress o v) ∧ o ∈ (s.addAddress o v).result.nodePts v ∧
      ⟨p.values.size + o, v, .addr⟩ ∈ (s.addAddress o v).result.graph.edges := by
  have hnode : s.result.graph.objNode o = p.values.size + o := by
    rw [AssignGraph.objNode, h.graph.valueCount]
  have hsrc : s.result.graph.objNode o < nodeCount p := by
    rw [hnode]
    exact Nat.add_lt_add_left ho _
  have hdst : v < nodeCount p := Nat.lt_add_right _ hv
  obtain ⟨hedge, hnew⟩ := advances_addEdge (k := .addr) h hsrc hdst
    ⟨o, hnode, (node_value hv).symm ▸ hmem⟩ nofun
  have hgrow := advances_grow hedge.inv (l := [o]) hdst fun x hx => by
    rw [List.mem_singleton.1 hx, node_value hv]
    exact hmem
  refine ⟨hedge.trans hgrow, ?_, hgrow.grows.edges (hnode ▸ hnew)⟩
  exact (mem_nodePts_grow (hedge.inv.pts_size ▸ hdst)).2 (.inr ⟨rfl, List.mem_singleton_self o⟩)

/-! ## folds -/

/-- Operations one after another, each with its own outcome. -/
theorem advances_foldl {α : Type} {f : Solver → α → Solver} {Q : Solver → α → Prop}
    {l : List α} (hstep : ∀ {s x}, x ∈ l → Inv p variableIndex A s →
      Advances p variableIndex A s (f s x) ∧ Q (f s x) x)
    (hmono : ∀ {s s' x}, Extends p s s' → Q s x → Q s' x) (h : Inv p variableIndex A s) :
    Advances p variableIndex A s (l.foldl f s) ∧ ∀ x ∈ l, Q (l.foldl f s) x := by
  induction l generalizing s with
  | nil => exact ⟨h.advances_refl, nofun⟩
  | cons x l ih =>
    obtain ⟨hfirst, hpost⟩ := hstep List.mem_cons_self h
    obtain ⟨hrest, hposts⟩ := ih (fun hx => hstep (List.mem_cons_of_mem x hx)) hfirst.inv
    refine ⟨hfirst.trans hrest, fun y hy => ?_⟩
    obtain rfl | hy := List.mem_cons.1 hy
    · exact hmono hrest.grows.toExtends hpost
    · exact hposts y hy

end operations

end PointsTo.Solver

end DataRace
