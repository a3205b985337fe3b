import DataRace.Proofs.PointsTo.Seed
import DataRace.Proofs.Success

/-!
# DataRace.Proofs.PointsTo.Worklist

Working the queue off.

A node is `Saturated` when everything that follows from its objects is
recorded.  A step saturates the node it takes out, unless the node grows
meanwhile and is back in the queue; so every node is saturated or waits:

* `step_spec`: what one step does;
* `solve_spec`: within its bound the solver empties the queue, and then every
  node is saturated.
-/

namespace DataRace

open Std Assignment Program

namespace PointsTo.Solver

/-- Everything that follows from one object of a node is recorded. -/
structure Processed (p : Program) (variableIndex : Bool) (s : Solver) (n o : Nat) : Prop where
  load : ∀ {i r}, p.op i = .load n → p.result i = some r → r ∈ s.flow (p.values.size + o)
  store : ∀ {i val}, p.op i = .store n val → p.values.size + o ∈ s.flow val
  field : ∀ {i k idx r o'}, p.op i = .project n (some k) idx → p.result i = some r →
    (objects p).objs.project o k = .ok o' → o' ∈ s.result.nodePts r
  index : ∀ {i idx r o'}, p.op i = .project n none idx → p.result i = some r →
    o' ∈ indexed (objects p).objs variableIndex o → o' ∈ s.result.nodePts r
  call : ∀ {i args f}, p.op i = .call (.indirect n) args →
    ((objects p).obj o).origin = .function f → f ∈ s.result.calleeMap.getD i ∅
  start : ∀ {i f}, pointedRoutine? p i = some n →
    ((objects p).obj o).origin = .function f → f ∈ s.result.spawneeMap.getD i ∅

/-- Everything that follows from the set of a node is recorded. -/
structure Saturated (p : Program) (variableIndex : Bool) (s : Solver) (n : Nat) : Prop where
  processed : ∀ {o : Nat}, o ∈ s.result.nodePts n → Processed p variableIndex s n o
  passed : ∀ {m o : Nat}, m ∈ s.flow n → o ∈ s.result.nodePts n → o ∈ s.result.nodePts m

/-- Every node is saturated or waits in the queue. -/
def Pending (p : Program) (variableIndex : Bool) (s : Solver) : Prop :=
  ∀ n : Nat, n ∈ s.queue ∨ Saturated p variableIndex s n

variable {p : Program} {variableIndex : Bool} {A : Assignment} {s s' : Solver}

theorem Processed.mono (h : Extends p s s') {n o : Nat} (ho : Processed p variableIndex s n o) :
    Processed p variableIndex s' n o where
  load hop hr := h.flow (ho.load hop hr)
  store hop := h.flow (ho.store hop)
  field hop hr hk := h.pts (ho.field hop hr hk)
  index hop hr hk := h.pts (ho.index hop hr hk)
  call hop hf := h.callees (ho.call hop hf)
  start hi hf := h.spawnees (ho.start hi hf)

/-- A saturated node stays saturated until it is queued again. -/
theorem Saturated.grows (h : Grows p s s') {n : Nat} (hn : Saturated p variableIndex s n) :
    n ∈ s'.queue ∨ Saturated p variableIndex s' n := by
  by_cases hq : n ∈ s'.queue
  · exact .inl hq
  · have hold {o : Nat} (ho : o ∈ s'.result.nodePts n) : o ∈ s.result.nodePts n :=
      (h.queued ho).resolve_right hq
    refine .inr ⟨fun ho => (hn.processed (hold ho)).mono h.toExtends, fun hm ho => ?_⟩
    obtain hm | hq' | hdone := h.flowed hm
    · exact h.pts (hn.passed hm (hold ho))
    · exact absurd hq' hq
    · exact hdone ho

theorem pending_seed (h : ∀ {n o : Nat}, o ∈ s.result.nodePts n → n ∈ s.queue) :
    Pending p variableIndex s := by
  intro n
  by_cases hq : n ∈ s.queue
  · exact .inl hq
  · exact .inr ⟨fun ho => absurd (h ho) hq, fun _ ho => absurd (h ho) hq⟩

/-! ## calls and thread starts through a value -/

/-- Elements in order under the key they have. -/
def group (key : Nat → Option Nat) (xs : List Nat) (m : IdMap (List Nat)) : IdMap (List Nat) :=
  xs.foldl (fun m x => match key x with
    | some k => m.insert k (m.getD k [] ++ [x])
    | none => m) m

theorem mem_getD_group {key : Nat → Option Nat} {xs : List Nat} {m : IdMap (List Nat)} {k x : Nat} :
    x ∈ (group key xs m).getD k [] ↔ x ∈ m.getD k [] ∨ x ∈ xs ∧ key x = some k := by
  induction xs generalizing m with
  | nil => simp [group]
  | cons y ys ih =>
    rw [group, List.foldl_cons, ← group, ih]
    cases hy : key y with
    | none => grind
    | some j =>
      rw [IdMap.getD_insert]
      grind

/-- The value a call goes through. -/
def calledValue? (p : Program) (i : InstId) : Option ValueId :=
  match p.op i with
  | .call (.indirect v) _ => some v
  | _ => none

theorem calledValue?_eq_some {i v : Nat} :
    calledValue? p i = some v ↔ ∃ args, p.op i = .call (.indirect v) args := by
  unfold calledValue?
  split
  · next w args hop => simp [hop]
  · next hother => exact ⟨nofun, fun ⟨args, hop⟩ => (hother v args hop).elim⟩

theorem mem_callsThrough {i v : Nat} : i ∈ (callsThrough p).getD v [] ↔
    i < p.insts.size ∧ ∃ args, p.op i = .call (.indirect v) args := by
  have heq : callsThrough p = group (calledValue? p) p.instIds ∅ := by
    unfold callsThrough calledValue? group
    congr 1
    funext m i
    split <;> simp_all
  rw [heq, mem_getD_group, TreeMap.getD_emptyc, calledValue?_eq_some, instIds, List.mem_range]
  simp

theorem mem_startsThrough {i v : Nat} : i ∈ (startsThrough p).getD v [] ↔
    i < p.insts.size ∧ pointedRoutine? p i = some v := by
  have heq : startsThrough p = group (pointedRoutine? p) p.instIds ∅ := rfl
  rw [heq, mem_getD_group, TreeMap.getD_emptyc, instIds, List.mem_range]
  simp

variable (p variableIndex) in
/-- What the steps read. -/
def env : Env :=
  { program := p, variableIndex, calls := callsThrough p, starts := startsThrough p }

/-! ## one object -/

/-- The projections of an object along an edge. -/
structure Projected (p : Program) (variableIndex : Bool) (s : Solver) (o : Nat)
    (e : Edge) : Prop where
  field : ∀ {k o'}, e.kind = .field k → (objects p).objs.project o k = .ok o' →
    o' ∈ s.result.nodePts e.dst
  index : ∀ {o'}, e.kind = .index → o' ∈ indexed (objects p).objs variableIndex o →
    o' ∈ s.result.nodePts e.dst

theorem Projected.mono (h : Extends p s s') {o : Nat} {e : Edge}
    (he : Projected p variableIndex s o e) : Projected p variableIndex s' o e :=
  ⟨fun hk ho => h.pts (he.field hk ho), fun hk ho => h.pts (he.index hk ho)⟩

/-- Marking an array concerns nothing the solver propagates. -/
theorem advances_markArray (h : Inv p variableIndex A s) (o : Nat) :
    Advances p variableIndex A s { s with result.objs := s.result.objs.markArray o } where
  inv := { h with objs := h.objs.trans (.markArray ..) }
  grows := .of_sets rfl rfl rfl rfl id id id .inl .inl
  debt_le := Int.le_refl _

theorem projectVia_spec (h : Inv p variableIndex A s) {n o : Nat} {e : Edge} {os : List ObjId}
    (ho : o ∈ A.node p n) (he : e ∈ s.result.graph.edges) (hsrc : e.src = n)
    (hvia : projectVia (env p variableIndex) s o e.kind = .ok (os, s')) :
    Advances p variableIndex A s s' ∧ (∀ x ∈ os, x ∈ A.node p e.dst) ∧
      (∀ {k x}, e.kind = .field k → (objects p).objs.project o k = .ok x → x ∈ os) ∧
      (∀ {x}, e.kind = .index → x ∈ indexed (objects p).objs variableIndex o → x ∈ os) := by
  have hjust := h.edge he
  unfold Justified at hjust
  subst hsrc
  cases hk : e.kind with
  | field k =>
    simp only [hk, projectVia, h.objs.project_eq] at hvia hjust
    obtain ⟨x, hx, hok⟩ := exists_of_bind_eq_ok hvia
    cases hok
    refine ⟨h.advances_refl, fun y hy => ?_, fun hk' hy => ?_, nofun⟩
    · rw [List.mem_singleton.1 hy]
      exact hjust.2 ho hx
    · cases hk'
      cases hx.symm.trans hy
      exact List.mem_singleton_self _
  | index =>
    simp only [hk, projectVia, env] at hvia hjust
    split at hvia
    · next hvi =>
      subst hvi
      split at hvia
      · cases hvia
        rw [h.objs.allFields_eq]
        exact ⟨h.advances_refl, fun y hy => hjust ho hy, nofun, fun _ hy => hy⟩
      · cases hvia
        have hadv := advances_markArray h o
        rw [hadv.inv.objs.allFields_eq]
        exact ⟨hadv, fun y hy => hjust ho hy, nofun, fun _ hy => hy⟩
    · next hvi =>
      have hvi' := Bool.eq_false_iff.2 hvi
      subst hvi'
      cases hvia
      rw [h.objs.baseOf_eq]
      exact ⟨h.advances_refl, fun y hy => hjust ho hy, nofun, fun _ hy => hy⟩
  | _ =>
    simp only [hk, projectVia] at hvia
    cases hvia
    exact ⟨h.advances_refl, nofun, nofun, nofun⟩

/-- The projections of an object along all edges out of its node. -/
theorem projectAll_spec {n o : Nat} (ho : o ∈ A.node p n) {es : List Edge}
    (h : Inv p variableIndex A s) (hes : ∀ e ∈ es, e ∈ s.result.graph.edges ∧ e.src = n)
    (hall : projectAll (env p variableIndex) o es s = .ok s') :
    Advances p variableIndex A s s' ∧ ∀ e ∈ es, Projected p variableIndex s' o e := by
  induction es generalizing s with
  | nil =>
    cases hall
    exact ⟨h.advances_refl, nofun⟩
  | cons e es ih =>
    obtain ⟨⟨os, t⟩, hvia, hrest⟩ := exists_of_bind_eq_ok hall
    obtain ⟨hmem, hsrc⟩ := hes e List.mem_cons_self
    obtain ⟨hadv, hos, hfield, hindex⟩ := projectVia_spec h ho hmem hsrc hvia
    have hdst := (h.graph.lt hmem).2
    obtain ⟨hgrow, hin⟩ := advances_foldl (l := os) (f := fun s x => s.grow e.dst [x])
      (Q := fun s x => x ∈ s.result.nodePts e.dst) (fun {s x} hx h =>
        ⟨advances_grow h hdst fun y hy => List.mem_singleton.1 hy ▸ hos x hx,
          (mem_nodePts_grow (h.pts_size ▸ hdst)).2 (.inr ⟨rfl, List.mem_singleton_self x⟩)⟩)
      (fun hext hx => hext.pts hx) hadv.inv
    have hfirst := hadv.trans hgrow
    obtain ⟨hadv', hproj⟩ := ih hfirst.inv (fun e' he' => by
      obtain ⟨hmem', hsrc'⟩ := hes e' (List.mem_cons_of_mem e he')
      exact ⟨hfirst.grows.edges hmem', hsrc'⟩) hrest
    refine ⟨hfirst.trans hadv', fun e' he' => ?_⟩
    obtain rfl | he' := List.mem_cons.1 he'
    · refine Projected.mono hadv'.grows.toExtends ⟨fun hk hx => ?_, fun hk hx => ?_⟩
      · exact hin _ (hfield hk hx)
      · exact hin _ (hindex hk hx)
    · exact hproj e' he'

theorem objNode_lt (hb : A.Bounded p) {n o : Nat} (ho : o ∈ A.node p n) :
    p.values.size + o < nodeCount p := Nat.add_lt_add_left (hb.node_lt ho) _

/-- What an object holds flows to the results of the loads through its node. -/
theorem stepLoads_spec (hb : A.Bounded p) {n o : Nat} (ho : o ∈ A.node p n) {l : List Edge}
    (hes : ∀ e ∈ l, Justified p variableIndex A e ∧ e.src = n ∧ e.dst < nodeCount p)
    (h : Inv p variableIndex A s) :
    let t := l.foldl (fun s e =>
      if e.kind = .load then s.addCopy (p.values.size + o) e.dst else s) s
    Advances p variableIndex A s t ∧
      ∀ e ∈ l, e.kind = .load → e.dst ∈ t.flow (p.values.size + o) := by
  refine advances_foldl
    (Q := fun s (e : Edge) => e.kind = .load → e.dst ∈ s.flow (p.values.size + o))
    (fun {s e} he h => ?_) (fun hext hpost hk => hext.flow (hpost hk)) h
  obtain ⟨hjust, hsrc, hdst⟩ := hes e he
  split
  · next hk =>
    rw [Justified, hk] at hjust
    obtain ⟨hadv, hmem⟩ := advances_addCopy h (objNode_lt hb ho) hdst (by
      rw [node_object]
      exact hjust (hsrc ▸ ho)) (fun hlt => absurd hlt (by omega))
    exact ⟨hadv, fun _ => hmem⟩
  · next hk => exact ⟨h.advances_refl, fun hk' => absurd hk' hk⟩

/-- What the stores through its node write flows to an object. -/
theorem stepStores_spec (hb : A.Bounded p) {n o : Nat} (ho : o ∈ A.node p n) {l : List Edge}
    (hes : ∀ e ∈ l, Justified p variableIndex A e ∧ e.dst = n ∧ e.src < nodeCount p)
    (h : Inv p variableIndex A s) :
    let t := l.foldl (fun s e =>
      if e.kind = .store then s.addCopy e.src (p.values.size + o) else s) s
    Advances p variableIndex A s t ∧
      ∀ e ∈ l, e.kind = .store → p.values.size + o ∈ t.flow e.src := by
  refine advances_foldl
    (Q := fun s (e : Edge) => e.kind = .store → p.values.size + o ∈ s.flow e.src)
    (fun {s e} he h => ?_) (fun hext hpost hk => hext.flow (hpost hk)) h
  obtain ⟨hjust, hdst, hsrc⟩ := hes e he
  split
  · next hk =>
    rw [Justified, hk] at hjust
    obtain ⟨hadv, hmem⟩ := advances_addCopy h hsrc (objNode_lt hb ho) (by
      rw [node_object]
      exact hjust (hdst ▸ ho)) (fun _ hlt => absurd hlt (by omega))
    exact ⟨hadv, fun _ => hmem⟩
  · next hk => exact ⟨h.advances_refl, fun hk' => absurd hk' hk⟩

/-- A thread start whose routine only the analysis can tell. -/
theorem pointedRoutine?_eq_some {i v : Nat} : pointedRoutine? p i = some v ↔
    p.isThreadStart i = true ∧ p.routine i = some v ∧ p.asFunction v = none := by
  unfold pointedRoutine?
  split
  · next hi =>
    rw [Option.filter_eq_some_iff, Option.isNone_iff_eq_none]
    simp [hi]
  · next hi => simp [hi]

/-- A function among the objects of a node is linked to all that goes through the node. -/
theorem stepFunction_spec (hp : p.WellFormed) (hA : A.Closed p variableIndex) {n o f : Nat}
    (ho : o ∈ A.node p n) (horg : ((objects p).obj o).origin = .function f)
    (h : Inv p variableIndex A s) :
    let t := ((startsThrough p).getD n []).foldl (fun s i => linkSpawn p s i f)
      (((callsThrough p).getD n []).foldl (fun s i => linkCall p s i f) s)
    Advances p variableIndex A s t ∧
      (∀ {i args}, p.op i = .call (.indirect n) args → f ∈ t.result.calleeMap.getD i ∅) ∧
      (∀ {i}, pointedRoutine? p i = some n → f ∈ t.result.spawneeMap.getD i ∅) := by
  obtain ⟨hcalls, hcall⟩ := advances_foldl (l := (callsThrough p).getD n [])
    (f := fun s i => linkCall p s i f) (Q := fun s i => f ∈ s.result.calleeMap.getD i ∅)
    (fun {s i} hi h => by
      obtain ⟨hlt, args, hop⟩ := mem_callsThrough.1 hi
      have hn : n < p.values.size := hp.operand_lt (i := i) (by
        rw [hop]
        exact List.mem_append_right _ (List.mem_singleton_self n))
      rw [node_value hn] at ho
      exact advances_linkCall hp hA h hlt (hA.indirect hop ho horg))
    (fun hext hi => hext.callees hi) h
  obtain ⟨hstarts, hstart⟩ := advances_foldl (l := (startsThrough p).getD n [])
    (f := fun s i => linkSpawn p s i f) (Q := fun s i => f ∈ s.result.spawneeMap.getD i ∅)
    (fun {s i} hi h => by
      obtain ⟨hi, hr, -⟩ := pointedRoutine?_eq_some.1 (mem_startsThrough.1 hi).2
      rw [node_value (entryArg_lt hp hr)] at ho
      exact advances_linkSpawn hp hA h (hA.start hi hr ho horg))
    (fun hext hi => hext.spawnees hi) hcalls.inv
  refine ⟨hcalls.trans hstarts, fun {i args} hop => ?_, fun {i} hi => ?_⟩
  · refine hstarts.grows.callees (hcall i (mem_callsThrough.2 ⟨?_, args, hop⟩))
    exact lt_of_op_ne (by rw [hop]; nofun)
  · exact hstart i (mem_startsThrough.2
      ⟨lt_of_entryArg (pointedRoutine?_eq_some.1 hi).2.1, hi⟩)

theorem stepObject_spec (hp : p.WellFormed) (hA : A.Closed p variableIndex) (hb : A.Bounded p)
    (h : Ready p variableIndex A s) {n o : Nat} (ho : o ∈ A.node p n)
    (hstep : stepObject (env p variableIndex) n s o = .ok s') :
    Advances p variableIndex A s s' ∧ Processed p variableIndex s' n o := by
  have hg := h.inv.graph
  have hnode : s.result.graph.objNode o = p.values.size + o := by
    rw [AssignGraph.objNode, hg.valueCount]
  have hout {e : Edge} (he : e ∈ s.result.graph.outEdges n) :=
    hg.mem_outEdges.1 he
  have hin {e : Edge} (he : e ∈ s.result.graph.inEdges n) :=
    hg.mem_inEdges.1 he
  simp only [stepObject, hnode] at hstep
  obtain ⟨hloads, hload⟩ := stepLoads_spec hb ho (l := s.result.graph.outEdges n)
    (fun e he => ⟨h.inv.edge (hout he).1, (hout he).2, (hg.lt (hout he).1).2⟩) h.inv
  obtain ⟨hstores, hstore⟩ := stepStores_spec hb ho (l := s.result.graph.inEdges n)
    (fun e he => ⟨h.inv.edge (hin he).1, (hin he).2, (hg.lt (hin he).1).1⟩) hloads.inv
  obtain ⟨t, hall, hlast⟩ := exists_of_bind_eq_ok hstep
  have hcopies := hloads.trans hstores
  obtain ⟨hprojects, hproject⟩ := projectAll_spec ho hcopies.inv
    (fun e he => ⟨hcopies.grows.edges (hout he).1, (hout he).2⟩) hall
  have hedges := hcopies.trans hprojects
  -- what the edges out of the node and into it say is now recorded
  have hrest (hext : Extends p t s') (hcall : ∀ {i args f}, p.op i = .call (.indirect n) args →
        ((objects p).obj o).origin = .function f → f ∈ s'.result.calleeMap.getD i ∅)
      (hstart : ∀ {i f}, pointedRoutine? p i = some n →
        ((objects p).obj o).origin = .function f → f ∈ s'.result.spawneeMap.getD i ∅) :
      Processed p variableIndex s' n o := by
    have hlater := (hstores.grows.trans hprojects.grows).toExtends.trans hext
    constructor
    case load =>
      intro i r hop hr
      have he := (h.inst (lt_of_result hr)).load hop hr
      exact hlater.flow (hload _ (hg.mem_outEdges.2 ⟨he, rfl⟩) rfl)
    case store =>
      intro i val hop
      have he := (h.inst (lt_of_op_ne (by simp [hop]))).store hop
      exact (hprojects.grows.toExtends.trans hext).flow
        (hstore _ (hg.mem_inEdges.2 ⟨he, rfl⟩) rfl)
    case field =>
      intro i k idx r o' hop hr hk
      have he := (h.inst (lt_of_result hr)).field hop hr
      exact hext.pts ((hproject _ (hg.mem_outEdges.2 ⟨he, rfl⟩)).field rfl hk)
    case index =>
      intro i idx r o' hop hr hk
      have he := (h.inst (lt_of_result hr)).index hop hr
      exact hext.pts ((hproject _ (hg.mem_outEdges.2 ⟨he, rfl⟩)).index rfl hk)
    case call => exact hcall
    case start => exact hstart
  have horg : (t.result.obj o).origin = ((objects p).obj o).origin := hedges.inv.objs.origin_eq o
  split at hlast
  · next f hf =>
    cases hlast
    obtain ⟨hadv, hcall, hstart⟩ := stepFunction_spec hp hA ho (horg ▸ hf) hedges.inv
    refine ⟨hedges.trans hadv, hrest hadv.grows.toExtends (fun hop hf' => ?_) fun hi hf' => ?_⟩
    · rw [← horg, hf] at hf'
      cases hf'
      exact hcall hop
    · rw [← horg, hf] at hf'
      cases hf'
      exact hstart hi
  · next hother =>
    cases hlast
    refine ⟨hedges, hrest (.refl _) (fun hop hf' => ?_) fun hi hf' => ?_⟩
    · exact absurd (horg.trans hf') (hother _)
    · exact absurd (horg.trans hf') (hother _)

/-! ## one node -/

theorem foldlM_stepObject_spec (hp : p.WellFormed) (hA : A.Closed p variableIndex)
    (hb : A.Bounded p) {n : Nat} {os : List Nat} (hos : ∀ o ∈ os, o ∈ A.node p n)
    (h : Ready p variableIndex A s)
    (hfold : os.foldlM (stepObject (env p variableIndex) n) s = .ok s') :
    Advances p variableIndex A s s' ∧ ∀ o ∈ os, Processed p variableIndex s' n o := by
  induction os generalizing s with
  | nil =>
    cases hfold
    exact ⟨h.inv.advances_refl, nofun⟩
  | cons o os ih =>
    rw [List.foldlM_cons] at hfold
    obtain ⟨t, hstep, hrest⟩ := exists_of_bind_eq_ok hfold
    obtain ⟨hadv, hproc⟩ := stepObject_spec hp hA hb h (hos o List.mem_cons_self) hstep
    obtain ⟨hadv', hprocs⟩ := ih (fun o' ho' => hos o' (List.mem_cons_of_mem o ho'))
      (h.extend hadv.inv hadv.grows.toExtends hadv.debt_le) hrest
    refine ⟨hadv.trans hadv', fun o' ho' => ?_⟩
    obtain rfl | ho' := List.mem_cons.1 ho'
    · exact hproc.mono hadv'.grows.toExtends
    · exact hprocs o' ho'

theorem flow_foldl_grow {ms : List Nat} {os : List ObjId} {n : Nat} :
    (ms.foldl (fun s m => s.grow m os) s).flow n = s.flow n := by
  induction ms generalizing s with
  | nil => rfl
  | cons m ms ih => rw [List.foldl_cons, ih, flow_grow]

/-- A step deals with all objects the node had when it was taken out. -/
theorem step_spec (hp : p.WellFormed) (hA : A.Closed p variableIndex) (hb : A.Bounded p)
    (h : Ready p variableIndex A s) {n : Nat} (hstep : step (env p variableIndex) s n = .ok s') :
    Advances p variableIndex A s s' ∧ (n ∈ s'.queue ∨ Saturated p variableIndex s' n) := by
  simp only [step] at hstep
  obtain ⟨t, hfold, hlast⟩ := exists_of_bind_eq_ok hstep
  have hset {o : Nat} (ho : o ∈ (s.result.nodePts n).toList) : o ∈ A.node p n :=
    h.inv.pts (TreeSet.mem_toList.1 ho)
  obtain ⟨hobjs, hproc⟩ := foldlM_stepObject_spec hp hA hb (fun o ho => hset ho) h hfold
  rw [TreeSet.foldl_eq_foldl_toList] at hlast
  cases hlast
  obtain ⟨hpass, hpassed⟩ := advances_foldl (s := t) (l := (t.flow n).toList)
    (f := fun u m => u.grow m (s.result.nodePts n).toList)
    (Q := fun u m => ∀ o ∈ s.result.nodePts n, o ∈ u.result.nodePts m)
    (fun {u m} hm hu => by
      obtain ⟨hlt, hsub⟩ := hobjs.inv.flow (TreeSet.mem_toList.1 hm)
      refine ⟨advances_grow hu hlt fun o ho => hsub (hset ho), fun o ho => ?_⟩
      exact (mem_nodePts_grow (hu.pts_size ▸ hlt)).2 (.inr ⟨rfl, TreeSet.mem_toList.2 ho⟩))
    (fun hext hx o ho => hext.pts (hx o ho)) hobjs.inv
  have hadv := hobjs.trans hpass
  have hflow :
      ((t.flow n).toList.foldl (fun u m => u.grow m (s.result.nodePts n).toList) t).flow n =
        t.flow n :=
    flow_foldl_grow
  change Advances p variableIndex A s ((t.flow n).toList.foldl _ t) ∧
    (n ∈ ((t.flow n).toList.foldl _ t).queue ∨ Saturated p variableIndex
      ((t.flow n).toList.foldl _ t) n)
  generalize (t.flow n).toList.foldl (fun u m => u.grow m (s.result.nodePts n).toList) t = u at *
  refine ⟨hadv, ?_⟩
  by_cases hq : n ∈ u.queue
  · exact .inl hq
  · have hold {o : Nat} (ho : o ∈ u.result.nodePts n) : o ∈ s.result.nodePts n :=
      (hadv.grows.queued ho).resolve_right hq
    refine .inr ⟨fun ho => ?_, fun hm ho => ?_⟩
    · exact (hproc _ (TreeSet.mem_toList.2 (hold ho))).mono hpass.grows.toExtends
    · rw [hflow] at hm
      exact hpassed _ (TreeSet.mem_toList.2 hm) _ (hold ho)

/-! ## all nodes -/

/-- A set of handles below a bound has at most that many. -/
theorem size_le_of_lt {set : IdSet} {b : Nat} (h : ∀ {x : Nat}, x ∈ set → x < b) :
    set.size ≤ b := by
  have hsub : set.toList.toFinset ⊆ Finset.range b := fun x hx =>
    Finset.mem_range.2 (h (TreeSet.mem_toList.1 (List.mem_toFinset.1 hx)))
  have hcard := Finset.card_le_card hsub
  rwa [List.toFinset_card_of_nodup (IdSet.nodup_toList set), TreeSet.length_toList,
    Finset.card_range] at hcard

/-- The sets and links can account for a bounded number of nodes only. -/
theorem debt_ge (hb : A.Bounded p) (h : Inv p variableIndex A s) :
    -((nodeCount p * (objects p).objs.size + p.insts.size * p.funcs.size : Nat) : Int) ≤
      debt p s := by
  have hweight : weight p s ≤ nodeCount p * (objects p).objs.size := by
    refine (Finset.sum_le_card_nsmul _ _ (objects p).objs.size fun n _ => ?_).trans_eq (by simp)
    exact size_le_of_lt fun ho => hb.node_lt (h.pts ho)
  have hlinks : links p s ≤ p.insts.size * p.funcs.size := by
    refine (Finset.sum_le_card_nsmul _ _ p.funcs.size fun i _ => ?_).trans_eq (by simp)
    exact size_le_of_lt fun hf => hb.callees i (h.callees hf)
  unfold debt
  omega

/-- Taking a node out lowers the debt by one, and nothing raises it. -/
theorem debt_dequeue {n : Nat} {queue : List Nat} (hq : s.queue = n :: queue) :
    debt p { s with queue } + 1 = debt p s := by
  change (queue.length : Int) - weight p s - links p s + 1 = _
  rw [debt, hq, List.length_cons]
  push_cast
  omega

theorem extends_dequeue (queue : List Nat) : Extends p s { s with queue } :=
  .of_eq rfl rfl rfl rfl rfl rfl

theorem Ready.dequeue (h : Ready p variableIndex A s) {n : Nat} {queue : List Nat}
    (hq : s.queue = n :: queue) : Ready p variableIndex A { s with queue } := by
  have htaken := debt_dequeue (p := p) hq
  exact h.extend { h.inv with } (extends_dequeue queue) (by omega)

/-- Within the bound the queue is worked off, and then every node is saturated. -/
theorem solve_spec (hp : p.WellFormed) (hA : A.Closed p variableIndex) (hb : A.Bounded p)
    {bound : Nat} (h : Ready p variableIndex A s) (hpending : Pending p variableIndex s)
    (hbound : debt p s + (nodeCount p * (objects p).objs.size + p.insts.size * p.funcs.size : Nat) <
      bound) (hsolve : solve (env p variableIndex) bound s = .ok s') :
    Ready p variableIndex A s' ∧ Extends p s s' ∧ s'.queue = [] ∧
      ∀ n, Saturated p variableIndex s' n := by
  induction bound generalizing s with
  | zero =>
    have hge := debt_ge hb h.inv
    omega
  | succ bound ih =>
    unfold solve at hsolve
    split at hsolve
    · next hq =>
      cases hsolve
      refine ⟨h, .refl _, hq, fun n => (hpending n).resolve_left ?_⟩
      rw [hq]
      exact List.not_mem_nil
    · next n queue hq =>
      obtain ⟨t, hstep, hrest⟩ := exists_of_bind_eq_ok hsolve
      have htaken := debt_dequeue (p := p) hq
      have hext := extends_dequeue (p := p) (s := s) queue
      have hready := h.dequeue hq
      obtain ⟨hadv, hn⟩ := step_spec hp hA hb hready hstep
      have hpending' : Pending p variableIndex t := by
        intro m
        by_cases hm : m = n
        · exact hm ▸ hn
        · obtain hqueued | hsat := hpending m
          · rw [hq] at hqueued
            exact .inl (hadv.grows.queue ((List.mem_cons.1 hqueued).resolve_left hm))
          · exact Saturated.grows hadv.grows
              ⟨fun ho => (hsat.processed ho).mono hext, hsat.passed⟩
      have hdebt := hadv.debt_le
      obtain ⟨hready', hext', hdone⟩ := ih
        (hready.extend hadv.inv hadv.grows.toExtends hadv.debt_le) hpending' (by omega) hrest
      exact ⟨hready', (hext.trans hadv.grows.toExtends).trans hext', hdone⟩

end PointsTo.Solver

end DataRace
