import DataRace.Partition.Escape
import DataRace.Proofs.Partition.Classes

/-!
# DataRace.Proofs.Partition.Escape

What a routine reaches from its argument escapes to its thread.

A routine moves on from its argument by casts, projections and loads
(`Derives`).  The objects that its thread sees (`Escape.Sees`) are closed under
contents, and an aggregate is seen as a whole where its start is seen.  A
projection stays in its aggregate, so a routine gets no further than what is
seen while it projects from pointers into such aggregates (`Escape.Admits`).

From a pointer into the middle of an aggregate a projection leads to other
fields, and these are not looked at.

* `Sees.of_contents`, `Sees.of_admits` — what is seen is closed;
* `Confines.closed` — points-to sets that are confined to it meet all constraints;
* `reveals_of_derives` — what is derived escapes;
* `not_forall_reveals` — the neighbour of a field that is handed over does not.
-/

namespace DataRace

open Relation Std

/-- Whether a projection, by a constant or by a variable, leads from one object to another. -/
def PointsTo.Leads (variableIndex : Bool) (t : PointsTo) (k : Option Nat) (o x : ObjId) : Prop :=
  match k with
  | some k => t.objs.project o k = .ok x
  | none => x ∈ Assignment.indexed t.objs variableIndex o

namespace PointsTo

variable {variableIndex : Bool} {t : PointsTo} {k : Option Nat} {o x : Nat}

/-- A projection stays in its aggregate. -/
theorem Leads.mem_allFields (h : t.objs.LaidAt o) (hx : t.Leads variableIndex k o x) :
    x ∈ t.objs.allFields o := by
  cases k with
  | some k => exact h.mem_allFields_of_project hx
  | none =>
    change x ∈ Assignment.indexed t.objs variableIndex o at hx
    unfold Assignment.indexed at hx
    split at hx
    · exact hx
    · rw [List.mem_singleton.1 hx]
      exact List.mem_cons_self

/-- A projection by nothing moves from the start of an aggregate only. -/
theorem Leads.eq_of_zero (h : t.objs.LaidAt o) (hx : t.Leads variableIndex (some 0) o x) :
    (t.obj o).isFirstField = true ∨ x = o := by
  cases hfield : (t.objs.get o).field with
  | none => exact .inl (by rw [obj, MemObject.isFirstField, hfield]; rfl)
  | some j => exact .inr (h.eq_of_project_zero hfield hx)

end PointsTo

namespace Escape

variable {p : Program} {variableIndex : Bool} {t : PointsTo} {vs : List ValueId} {o x : Nat}

/-! ## the objects reached from some pointers -/

theorem mem_exposed_self (h : t.objs.LaidAt o) : o ∈ exposed t o := by
  unfold exposed
  split
  · exact h.mem_allFields_of_baseOf_eq rfl
  · exact List.mem_singleton_self o

/-- The start of an aggregate exposes as much as what exposed it. -/
theorem mem_exposed_of_first {d : Nat} (hd : t.objs.LaidAt d) (ho : o ∈ exposed t d)
    (hfirst : (t.obj o).isFirstField = true) (hx : x ∈ t.objs.allFields o) : x ∈ exposed t d := by
  unfold exposed at ho ⊢
  split at ho
  · rw [if_pos ‹_›]
    rwa [ObjectTable.allFields, ObjectTable.fieldsOf, (hd.mem_allFields ho).1] at hx
  · next hnot =>
    obtain rfl := List.mem_singleton.1 ho
    exact absurd hfirst hnot

section objectsFrom

variable (hp : p.Finished) (h : PointsTo.analyze p variableIndex = .ok t)

include hp h

theorem exposed_lt (ho : o < t.objs.size) (hx : x ∈ exposed t o) : x < t.objs.size := by
  unfold exposed at hx
  split at hx
  · exact PointsTo.allFields_lt hp h ho hx
  · rwa [List.mem_singleton.1 hx]

theorem mem_objectsFrom_of_mem {v : ValueId} (hv : v ∈ vs) (ho : o ∈ t.of v)
    (hx : x ∈ exposed t o) : x ∈ objectsFrom t vs :=
  mem_reachable_iff.2
  ⟨x, List.mem_flatMap.2 ⟨v, hv, List.mem_flatMap.2 ⟨o, TreeSet.mem_toList.2 ho, hx⟩⟩,
    exposed_lt hp h (PointsTo.lt_of_mem hp h ho) hx, .refl⟩

theorem mem_objectsFrom_of_contents {d : Nat} (hd : d ∈ objectsFrom t vs) (ho : o ∈ t.contents d)
    (hx : x ∈ exposed t o) : x ∈ objectsFrom t vs := by
  obtain ⟨a, ha, hlt, hpath⟩ := mem_reachable_iff.1 hd
  refine mem_reachable_iff.2 ⟨a, ha, hlt, hpath.tail ⟨?_, ?_⟩⟩
  · exact List.mem_flatMap.2 ⟨o, TreeSet.mem_toList.2 ho, hx⟩
  · exact exposed_lt hp h (PointsTo.lt_of_mem hp h ho) hx

/-- What is reached was exposed together with all else that its pointer exposes. -/
theorem exists_exposed_of_mem (ho : o ∈ objectsFrom t vs) : ∃ d, t.objs.LaidAt d ∧
    o ∈ exposed t d ∧ ∀ y ∈ exposed t d, y ∈ objectsFrom t vs := by
  rcases mem_reachable_cases ho with hstart | ⟨c, hc, hnext⟩
  · obtain ⟨v, hv, hshown⟩ := List.mem_flatMap.1 hstart
    obtain ⟨d, hd, hexp⟩ := List.mem_flatMap.1 hshown
    have hd := TreeSet.mem_toList.1 hd
    exact ⟨d, PointsTo.laidAt_of_mem hp h hd, hexp,
      fun y hy => mem_objectsFrom_of_mem hp h hv hd hy⟩
  · obtain ⟨d, hd, hexp⟩ := List.mem_flatMap.1 hnext
    have hd := TreeSet.mem_toList.1 hd
    exact ⟨d, PointsTo.laidAt_of_mem hp h hd, hexp,
      fun y hy => mem_objectsFrom_of_contents hp h hc hd hy⟩

/-- An aggregate is reached as a whole where its start is. -/
theorem mem_objectsFrom_of_first (ho : o ∈ objectsFrom t vs)
    (hfirst : (t.obj o).isFirstField = true) (hx : x ∈ t.objs.allFields o) :
    x ∈ objectsFrom t vs := by
  obtain ⟨d, hlaid, hexp, hall⟩ := exists_exposed_of_mem hp h ho
  exact hall x (mem_exposed_of_first hlaid hexp hfirst hx)

end objectsFrom

/-! ## the objects that a thread sees -/

/-- Whether the threads of a fork see an object. -/
def Sees (x : Escape) (i : InstId) (o : ObjId) : Prop :=
  o ∈ x.globalObjs ∨ o ∈ x.forkObjs.getD i ∅

/-- Whether an object starts its aggregate, or the threads of a fork see the start. -/
def Anchored (t : PointsTo) (x : Escape) (i : InstId) (o : ObjId) : Prop :=
  (t.obj o).isFirstField = true ∨ x.Sees i (t.objs.baseOf o)

/-- Whether a projection from a pointer stays where it is or in aggregates whose start is seen. -/
def Admits (t : PointsTo) (x : Escape) (i : InstId) (v : ValueId) (k : Option Nat) : Prop :=
  k = some 0 ∨ ∀ o ∈ t.of v, Anchored t x i o

section sees

variable {s : Subject} {ops : Operations} {m : Partitioning} {i : InstId}

theorem sees_iff : (of s ops m).Sees i o ↔
    o ∈ objectsFrom s.pointers (s.program.globals.toList.map (·.addr)) ∨
      i ∈ ops.spawns ++ ops.parallelFors ∧
        o ∈ objectsFrom s.pointers (s.program.routineArg i).toList := by
  rw [Sees, of, IdMap.getD_foldl_insert]
  split
  · next hi => rw [and_iff_right hi]
  · next hi => simp [hi]

variable (hp : s.program.Finished)
  (h : PointsTo.analyze s.program variableIndex = .ok s.pointers)

include hp h

theorem sees_of_argument {a : ValueId} (hi : i ∈ ops.spawns) (ha : s.program.routineArg i = some a)
    (ho : o ∈ s.pointers.of a) : (of s ops m).Sees i o := by
  refine sees_iff.2 (.inr ⟨List.mem_append_left _ hi, ?_⟩)
  exact mem_objectsFrom_of_mem hp h (by rw [ha]; exact List.mem_singleton_self a) ho
    (mem_exposed_self (PointsTo.laidAt_of_mem hp h ho))

theorem Sees.of_contents (hd : (of s ops m).Sees i x) (ho : o ∈ s.pointers.contents x) :
    (of s ops m).Sees i o := by
  have hself := mem_exposed_self (PointsTo.laidAt_of_mem hp h ho)
  rw [sees_iff] at hd ⊢
  exact hd.imp (fun hd => mem_objectsFrom_of_contents hp h hd ho hself)
    (.imp_right fun hd => mem_objectsFrom_of_contents hp h hd ho hself)

theorem Sees.of_first (ho : (of s ops m).Sees i o) (hfirst : (s.pointers.obj o).isFirstField = true)
    (hx : x ∈ s.pointers.objs.allFields o) : (of s ops m).Sees i x := by
  rw [sees_iff] at ho ⊢
  exact ho.imp (fun ho => mem_objectsFrom_of_first hp h ho hfirst hx)
    (.imp_right fun ho => mem_objectsFrom_of_first hp h ho hfirst hx)

/-- Where the start of an aggregate is seen, all of it is. -/
theorem Sees.of_anchored (hlaid : s.pointers.objs.LaidAt o) (ho : (of s ops m).Sees i o)
    (hanchored : Anchored s.pointers (of s ops m) i o) (hx : x ∈ s.pointers.objs.allFields o) :
    (of s ops m).Sees i x := by
  rcases hanchored with hfirst | hbase
  · exact ho.of_first hp h hfirst hx
  · refine hbase.of_first hp h ?_ ?_
    · rw [PointsTo.obj, MemObject.isFirstField, hlaid.base.2]
      rfl
    · rwa [ObjectTable.allFields, ObjectTable.fieldsOf, hlaid.base.1]

/-- An admitted projection leads from what is seen to what is seen. -/
theorem Sees.of_admits {v : ValueId} {k : Option Nat} (hseen : (of s ops m).Sees i o)
    (hadmits : Admits s.pointers (of s ops m) i v k) (ho : o ∈ s.pointers.of v)
    (hx : s.pointers.Leads variableIndex k o x) : (of s ops m).Sees i x := by
  have hlaid := PointsTo.laidAt_of_mem hp h ho
  have hinside := hx.mem_allFields hlaid
  rcases hadmits with rfl | hanchored
  · rcases hx.eq_of_zero hlaid with hfirst | rfl
    · exact hseen.of_first hp h hfirst hinside
    · exact hseen
  · exact hseen.of_anchored hp h hlaid (hanchored o ho) hinside

end sees

end Escape

/-! ## the values that a routine derives from its argument -/

/-- The values of a function that casts, admitted projections and loads derive from its
argument `q`. -/
inductive Derives (p : Program) (admitted : ValueId → Option Nat → Prop) (f : FuncId)
    (q : ValueId) : ValueId → Prop
  | argument : Derives p admitted f q q
  | cast {i v w : Nat} : Derives p admitted f q v → p.funcOf i = f → p.op i = .cast v →
      p.result i = some w → Derives p admitted f q w
  | load {i v w : Nat} : Derives p admitted f q v → p.funcOf i = f → p.op i = .load v →
      p.result i = some w → Derives p admitted f q w
  | project {i v w : Nat} {k : Option Nat} {idx : Option ValueId} : Derives p admitted f q v →
      admitted v k → p.funcOf i = f → p.op i = .project v k idx → p.result i = some w →
      Derives p admitted f q w

/-- Whether no call leads to a function but the start of a thread at one instruction. -/
def CallGraph.EnteredOnlyBy (g : CallGraph) (f : FuncId) (i : InstId) : Prop :=
  ∀ e ∈ g.edges, e.callee = f → e.fork = true ∧ e.site = i

instance (g : CallGraph) (f : FuncId) (i : InstId) : Decidable (g.EnteredOnlyBy f i) :=
  inferInstanceAs (Decidable (∀ e ∈ g.edges, e.callee = f → e.fork = true ∧ e.site = i))

namespace Derives

variable {p : Program} {admitted : ValueId → Option Nat → Prop} {f q v w i : Nat}

/-- How a result is derived shows in its instruction. -/
theorem cases_of_result (hp : p.WellFormed) (hq : q ∈ (p.func f).params)
    (hw : Derives p admitted f q w) (hr : p.result i = some w) :
    (∃ v, p.op i = .cast v ∧ Derives p admitted f q v) ∨
      (∃ v, p.op i = .load v ∧ Derives p admitted f q v) ∨
      ∃ v k idx, p.op i = .project v k idx ∧ Derives p admitted f q v ∧ admitted v k := by
  have hdef := (hp.result_iff.1 hr).2
  have hinst {j : Nat} (hj : p.result j = some w) : j = i :=
    Definition.inst.inj ((hp.result_iff.1 hj).2.symm.trans hdef)
  cases hw with
  | argument =>
    obtain ⟨k, hk⟩ := hp.param_def hq
    rw [hk] at hdef
    cases hdef
  | cast hv _ hop hj => exact .inl ⟨_, hinst hj ▸ hop, hv⟩
  | load hv _ hop hj => exact .inr (.inl ⟨_, hinst hj ▸ hop, hv⟩)
  | project hv hok _ hop hj => exact .inr (.inr ⟨_, _, _, hinst hj ▸ hop, hv, hok⟩)

/-- A parameter is derived only if it is the argument. -/
theorem eq_of_param (hp : p.WellFormed) {g : FuncId} (hv : v ∈ (p.func g).params)
    (hd : Derives p admitted f q v) : v = q := by
  obtain ⟨k, hk⟩ := hp.param_def hv
  have hne {j : Nat} (hj : p.result j = some v) : False := by
    rw [(hp.result_iff.1 hj).2] at hk
    cases hk
  cases hd with
  | argument => rfl
  | cast _ _ _ hj => exact (hne hj).elim
  | load _ _ _ hj => exact (hne hj).elim
  | project _ _ _ _ hj => exact (hne hj).elim

theorem lt_size (hp : p.WellFormed) (hq : q ∈ (p.func f).params) (hd : Derives p admitted f q v) :
    v < p.values.size := by
  cases hd with
  | argument => exact hp.param_lt hq
  | cast _ _ _ hj => exact (hp.result_iff.1 hj).1
  | load _ _ _ hj => exact (hp.result_iff.1 hj).1
  | project _ _ _ _ hj => exact (hp.result_iff.1 hj).1

/-- A derived value is a parameter or a result. -/
theorem definition_cases (hp : p.WellFormed) (hq : q ∈ (p.func f).params)
    (hd : Derives p admitted f q v) :
    (∃ g k, (p.value v).definition = .param g k) ∨ ∃ j, (p.value v).definition = .inst j := by
  cases hd with
  | argument => exact .inl ⟨f, hp.param_def hq⟩
  | cast _ _ _ hj => exact .inr ⟨_, (hp.result_iff.1 hj).2⟩
  | load _ _ _ hj => exact .inr ⟨_, (hp.result_iff.1 hj).2⟩
  | project _ _ _ _ hj => exact .inr ⟨_, (hp.result_iff.1 hj).2⟩

end Derives

/-! ## points-to sets confined to what is seen -/

/-- The points-to sets of a result where derived values point to seen objects only. -/
def Assignment.confined (p : Program) (t : PointsTo) (derived : ValueId → Prop)
    (seen : ObjId → Prop) : Assignment where
  of v := {o | o ∈ t.of v ∧ (derived v → seen o)}
  contents o := {x | x ∈ t.contents o}
  callees j := {g | g ∈ t.callees j ∧ p.isCall j = true}
  spawnees j := {g | g ∈ t.spawnees j ∧ p.isThreadStart j = true}
  joined j := {k | k ∈ t.joinedSpawns j}

/-- Every way into a derived value brings seen objects only. -/
structure Confines (p : Program) (variableIndex : Bool) (t : PointsTo) (derived : ValueId → Prop)
    (seen : ObjId → Prop) : Prop where
  global : ∀ {g}, g < p.globals.size → ¬derived (p.global g).addr
  function : ∀ {f}, f < p.funcs.size → ¬derived (p.func f).addr
  result : ∀ {i r}, p.result i = some r → derived r →
    (∃ v, p.op i = .cast v ∧ derived v) ∨ (∃ v, p.op i = .load v ∧ derived v) ∨
      ∃ v k idx, p.op i = .project v k idx ∧ derived v ∧
        ∀ o ∈ t.of v, seen o → ∀ x, t.Leads variableIndex k o x → seen x
  contents : ∀ {o x}, seen o → x ∈ t.contents o → seen x
  argument : ∀ {i f q}, p.isCall i = true → f ∈ t.callees i → (p.func f).isDeclaration = false →
    q ∈ (p.func f).params → ¬derived q
  startArgument : ∀ {i f a q qs o}, p.isThreadStart i = true → f ∈ t.spawnees i →
    (p.func f).isDeclaration = false → p.routineArg i = some a → (p.func f).params = q :: qs →
    derived q → o ∈ t.of a → seen o

namespace Confines

variable {p : Program} {variableIndex : Bool} {t : PointsTo} {derived : ValueId → Prop}
  {seen : ObjId → Prop}

/-- Only casts, loads and projections have derived results. -/
theorem not_derived (hc : Confines p variableIndex t derived seen) {i r : Nat}
    (hr : p.result i = some r) (hcast : ∀ v, p.op i ≠ .cast v) (hload : ∀ v, p.op i ≠ .load v)
    (hproject : ∀ v k idx, p.op i ≠ .project v k idx) : ¬derived r := by
  intro hd
  obtain ⟨v, hop, -⟩ | ⟨v, hop, -⟩ | ⟨v, k, idx, hop, -⟩ := hc.result hr hd
  · exact hcast v hop
  · exact hload v hop
  · exact hproject v k idx hop

theorem not_derived_of_isCall (hc : Confines p variableIndex t derived seen) {i r : Nat}
    (hcall : p.isCall i = true) (hr : p.result i = some r) : ¬derived r := by
  apply hc.not_derived hr
  all_goals
    intros
    intro hop
    rw [Program.isCall, hop] at hcall
    cases hcall

/-- Points-to sets that are confined to what is seen meet all constraints. -/
theorem closed (hp : p.Finished) (h : PointsTo.analyze p variableIndex = .ok t)
    (hc : Confines p variableIndex t derived seen) :
    (Assignment.confined p t derived seen).Closed p variableIndex := by
  have hclosed := PointsTo.analyze_closed hp h
  obtain ⟨solver, hsolver, hsolved⟩ := PointsTo.exists_solved hp h
  have hobjs : (PointsTo.Solver.objects p).objs.SameBlocks t.objs :=
    hsolver ▸ hsolved.ready.inv.objs
  have hproject {i base r o x : Nat} {k : Option Nat} {idx : Option ValueId}
      (hop : p.op i = .project base k idx) (hr : p.result i = some r)
      (ho : o ∈ (Assignment.confined p t derived seen).of base)
      (hx : t.Leads variableIndex k o x) (hd : derived r) : seen x := by
    obtain ⟨v, hop', -⟩ | ⟨v, hop', -⟩ | ⟨v, k', idx', hop', hv, hall⟩ := hc.result hr hd
    · cases hop.symm.trans hop'
    · cases hop.symm.trans hop'
    · cases hop.symm.trans hop'
      exact hall o ho.1 (ho.2 hv) x hx
  constructor
  case global => exact fun hg => ⟨hclosed.global hg, fun hd => absurd hd (hc.global hg)⟩
  case function => exact fun hf => ⟨hclosed.function hf, fun hd => absurd hd (hc.function hf)⟩
  case alloc =>
    intro i heap fields r hop hr
    obtain ⟨o, ho, hmem⟩ := hclosed.alloc hop hr
    exact ⟨o, ho, hmem, fun hd => absurd hd (hc.not_derived hr (by simp [hop]) (by simp [hop])
      (by simp [hop]))⟩
  case cast =>
    rintro i src r hop hr o ⟨ho, hseen⟩
    refine ⟨hclosed.cast hop hr ho, fun hd => ?_⟩
    obtain ⟨v, hop', hv⟩ | ⟨v, hop', -⟩ | ⟨v, k, idx, hop', -⟩ := hc.result hr hd
    · cases hop.symm.trans hop'
      exact hseen hv
    · cases hop.symm.trans hop'
    · cases hop.symm.trans hop'
  case phi =>
    rintro i ins r v b hop hr hv o ⟨ho, -⟩
    exact ⟨hclosed.phi hop hr hv ho, fun hd => absurd hd (hc.not_derived hr (by simp [hop])
      (by simp [hop]) (by simp [hop]))⟩
  case load =>
    rintro i ptr r o hop hr ⟨ho, hseen⟩ x hx
    refine ⟨hclosed.load hop hr ho hx, fun hd => ?_⟩
    obtain ⟨v, hop', -⟩ | ⟨v, hop', hv⟩ | ⟨v, k, idx, hop', -⟩ := hc.result hr hd
    · cases hop.symm.trans hop'
    · cases hop.symm.trans hop'
      exact hc.contents (hseen hv) hx
    · cases hop.symm.trans hop'
  case store => exact fun hop ho x hx => hclosed.store hop ho.1 hx.1
  case field =>
    intro i base k idx r o x hop hr ho hk
    refine ⟨hclosed.field hop hr ho.1 hk, hproject hop hr ho ?_⟩
    exact (hobjs.project_eq o k).trans hk
  case index =>
    intro i base idx r o x hop hr ho hx
    refine ⟨hclosed.index hop hr ho.1 hx, hproject hop hr ho ?_⟩
    change x ∈ Assignment.indexed t.objs variableIndex o
    rwa [PointsTo.indexed_eq hobjs]
  case direct => exact fun hf => ⟨hclosed.direct hf, Program.isCall_of_directCallee hf⟩
  case indirect =>
    exact fun hop ho hf => ⟨hclosed.indirect hop ho.1 hf, by rw [Program.isCall, hop]; rfl⟩
  case argument =>
    rintro i f a q hf hd hq o ⟨ho, -⟩
    exact ⟨hclosed.argument hf.1 hd hq ho,
      fun hder => absurd hder (hc.argument hf.2 hf.1 hd (List.of_mem_zip hq).2)⟩
  case returned =>
    rintro i f v r hf hd hv hr o ⟨ho, -⟩
    exact ⟨hclosed.returned hf.1 hd hv hr ho,
      fun hder => absurd hder (hc.not_derived_of_isCall hf.2 hr)⟩
  case unrecognised =>
    intro i f r hf hd hlib hr
    exact ⟨hclosed.unrecognised hf.1 hd hlib hr,
      fun hder => absurd hder (hc.not_derived_of_isCall hf.2 hr)⟩
  case start => exact fun hi hv ho hf => ⟨hclosed.start hi hv ho.1 hf, hi⟩
  case startArgument =>
    rintro i f a q qs hf hd ha hq o ⟨ho, -⟩
    exact ⟨hclosed.startArgument hf.1 hd ha hq ho,
      fun hder => hc.startArgument hf.2 hf.1 hd ha hq hder ho⟩
  case join =>
    intro j i ptr r tid hj hi hptr hr htid halias
    have halias' : t.assignment.MayAlias (PointsTo.Solver.objects p).unknown ptr tid :=
      Assignment.MayAlias.mono (A := .confined p t derived seen) (fun _ ho => ho.1)
        (fun _ ho => ho.1) halias
    obtain ⟨hjoined, hflows⟩ := hclosed.join hj hi hptr hr htid halias'
    refine ⟨hjoined, fun hf hv o ho => ⟨hflows hf.1 hv ho.1, fun hder => ?_⟩⟩
    exact absurd hder
      (hc.not_derived_of_isCall (Program.isCall_of_libraryCall (eq_of_beq hj)) hr)

/-- Derived values point to what is seen. -/
theorem seen_of_mem (hp : p.Finished) (h : PointsTo.analyze p variableIndex = .ok t)
    (hc : Confines p variableIndex t derived seen) {v o : Nat} (hv : v < p.values.size)
    (hd : derived v) (ho : o ∈ t.of v) : seen o :=
  ((PointsTo.analyze_within hp h (hc.closed hp h)).of hv ho).2 hd

end Confines

/-! ## what is derived escapes -/

namespace Escape

variable {p : Program} {c : Config} {s : Subject} {m : Partitioning} {f q i : Nat}

/-- A routine that is entered by one fork only, and has admitted projections only, is confined to
what the threads of the fork see. -/
theorem confines (hp : s.program.Finished) (h : s.Prepared s.program c)
    (hi : i ∈ (Operations.collect s).spawns) (hq : q ∈ (s.program.func f).params)
    (hentry : s.calls.EnteredOnlyBy f i) :
    let x := Escape.of s (.collect s) m
    Confines s.program c.variableIndex s.pointers
      (Derives s.program (Admits s.pointers x i) f q) (x.Sees i) := by
  have hwf := hp.wellFormed
  intro x
  -- the argument belongs to one function only
  have hfunc {g r : Nat} (hr : r ∈ (s.program.func g).params)
      (hd : Derives s.program (Admits s.pointers x i) f q r) : g = f := by
    obtain rfl := hd.eq_of_param hwf hr
    obtain ⟨k, hk⟩ := hwf.param_def hr
    obtain ⟨k', hk'⟩ := hwf.param_def hq
    cases hk.symm.trans hk'
    rfl
  constructor
  case global =>
    intro g hg hd
    obtain ⟨f', k, hdef⟩ | ⟨j, hdef⟩ := hd.definition_cases hwf hq
    · cases (hwf.global_def hg).symm.trans hdef
    · cases (hwf.global_def hg).symm.trans hdef
  case function =>
    intro g hg hd
    have haddr := (hwf.addr_iff.1 ⟨hg, rfl⟩).2
    obtain ⟨f', k, hdef⟩ | ⟨j, hdef⟩ := hd.definition_cases hwf hq
    · cases haddr.symm.trans hdef
    · cases haddr.symm.trans hdef
  case result =>
    intro j r hr hd
    obtain hcast | hload | ⟨v, k, idx, hop, hv, hadmits⟩ := hd.cases_of_result hwf hq hr
    · exact .inl hcast
    · exact .inr (.inl hload)
    · exact .inr (.inr ⟨v, k, idx, hop, hv, fun o ho hseen y hy =>
        hseen.of_admits hp h.pointers hadmits ho hy⟩)
  case contents => exact fun hseen hx => hseen.of_contents hp h.pointers hx
  case argument =>
    intro j g r hcall hg hbody hr hd
    obtain rfl := hfunc hr hd
    have hedge : ⟨j, s.program.funcOf j, g, false⟩ ∈ s.calls.edges := by
      rw [h.calls]
      exact CallGraph.mem_edges_iff.2
        ⟨Program.lt_of_isCall hcall, hcall, rfl, hbody, .inl ⟨rfl, hg⟩⟩
    cases (hentry _ hedge rfl).1
  case startArgument =>
    intro j g a r rs o hstart hg hbody ha hr hd ho
    obtain rfl := hfunc (hr ▸ List.mem_cons_self) hd
    have hcall : s.program.isCall j = true := Program.isCall_of_isThreadStart hstart
    have hedge : ⟨j, s.program.funcOf j, g, true⟩ ∈ s.calls.edges := by
      rw [h.calls]
      exact CallGraph.mem_edges_iff.2
        ⟨Program.lt_of_isCall hcall, hcall, rfl, hbody, .inr ⟨rfl, hstart, hg⟩⟩
    obtain rfl := (hentry _ hedge rfl).2
    exact sees_of_argument hp h.pointers hi ha ho

/-- What a value points to is visible to the threads of a fork, and so are its partitions. -/
structure Reveals (t : PointsTo) (m : Partitioning) (x : Escape) (i : InstId) (w : ValueId) :
    Prop where
  visible : ∀ o ∈ t.of w, Partitioning.IsData t o →
    x.isForkVisible t w i = true ∨ x.isGlobalVisible t w = true
  escapes : ∀ o ∈ t.of w, Partitioning.IsData t o → ∀ r ∈ m.parts, o ∈ r.objs →
    x.escapesTo r.id i = true

/-- Seen objects are visible, and so are their partitions. -/
theorem reveals_of_sees {ops : Operations} (hp : s.program.Finished) (h : s.Prepared s.program c)
    {w : ValueId} (hsees : ∀ o ∈ s.pointers.of w, (Escape.of s ops (.of s ops)).Sees i o) :
    Reveals s.pointers (.of s ops) (.of s ops (.of s ops)) i w := by
  have hshown {o : Nat} (ho : o ∈ s.pointers.of w) : o ∈ shown s.pointers w :=
    List.mem_flatMap.2 ⟨o, TreeSet.mem_toList.2 ho,
      mem_exposed_self (PointsTo.laidAt_of_mem hp h.pointers ho)⟩
  constructor
  case visible =>
    intro o ho _
    rcases hsees o ho with hglobal | hfork
    · exact .inr (List.any_eq_true.2 ⟨o, hshown ho, hglobal⟩)
    · exact .inl (List.any_eq_true.2 ⟨o, hshown ho, hfork⟩)
  case escapes =>
    intro o ho _ r hr hor
    have hpart : (Partitioning.of s ops).partOf? o = some r.id :=
      Partitioning.partOf?_eq_some_iff.2 ⟨r, hr, hor, rfl⟩
    have hin {objs : IdSet} (hobj : o ∈ objs) : (TreeSet.ofList
        (objs.toList.filterMap (Partitioning.of s ops).partOf?) : IdSet).contains r.id = true := by
      rw [TreeSet.contains_ofList, List.contains_iff_mem]
      exact List.mem_filterMap.2 ⟨o, TreeSet.mem_toList.2 hobj, hpart⟩
    rw [escapesTo, Bool.or_eq_true]
    refine (hsees o ho).imp hin fun hfork => ?_
    obtain ⟨objs, hobjs, hobj⟩ := IdMap.mem_getD_iff.1 hfork
    have hparts : (Escape.of s ops (.of s ops)).forkParts[i]? = some (TreeSet.ofList
        (objs.toList.filterMap (Partitioning.of s ops).partOf?)) := by
      simp only [of, TreeMap.getElem?_map]
      exact congrArg _ hobjs
    rw [IdMap.getD_of_getElem? hparts]
    exact hin hobj

/-- **What a thread derives from its argument escapes to it**, if its routine is entered by one
fork only and its projections are admitted. -/
theorem reveals_of_derives (hp : p.Finished) (hs : Subject.prepare p c = .ok s) {f i q : Nat}
    {qs : List ValueId} (hi : i ∈ (Operations.collect s).spawns)
    (hentry : s.calls.EnteredOnlyBy f i) (hq : (p.func f).params = q :: qs) {w : Nat} :
    let m := Partitioning.of s (.collect s)
    let x := Escape.of s (.collect s) m
    Derives p (Admits s.pointers x i) f q w →
      Reveals s.pointers m x i w := by
  intro m x hw
  have h := Subject.prepared hs
  obtain rfl := h.program
  have hmem : q ∈ (s.program.func f).params := hq ▸ List.mem_cons_self
  exact reveals_of_sees hp h fun o ho =>
    (confines hp h hi hmem hentry).seen_of_mem hp h.pointers (hw.lt_size hp.wellFormed hmem) hw ho

/-- A thread gets an aggregate, follows the pointer in its second field to another one, and writes
the second field there, which is written outside the thread, too. -/
def linkedAggregates : List Command :=
  [.declare "main" 0, .declare "worker" 1, .declare "thread_create" 3, .const 0,
    .body 1, .append 1 0 (.project 2 (some 1) none), .append 1 0 (.load 8),
    .append 1 0 (.project 9 (some 1) none), .append 1 0 (.store 10 7), .append 1 0 (.ret none),
    .body 0, .append 0 1 (.alloc false 0), .append 0 1 (.alloc true 2), .append 0 1 (.alloc true 2),
    .append 0 1 (.project 12 (some 1) none), .append 0 1 (.store 14 13),
    .append 0 1 (.call (.direct 2) [11, 1, 12]), .append 0 1 (.project 13 (some 1) none),
    .append 0 1 (.store 16 7), .append 0 1 (.ret none)]

/-- The field that the thread gets to escapes to it. -/
theorem reveals_linkedAggregates : ∃ s, (Builder.ofScript linkedAggregates).Finished ∧
    Subject.prepare (Builder.ofScript linkedAggregates) {} = .ok s ∧
    10 ∈ (Operations.collect s).spawns ∧ s.calls.EnteredOnlyBy 1 10 ∧
    (∃ o ∈ s.pointers.of 10, Partitioning.IsData s.pointers o) ∧
    Reveals s.pointers (.of s (.collect s)) (.of s (.collect s) (.of s (.collect s))) 10 10 := by
  have hfin : (Builder.ofScript linkedAggregates).Finished :=
    Builder.finished_ofScript (by decide +kernel)
  have hrun : (Subject.prepare (Builder.ofScript linkedAggregates) {}).toOption.any (fun s =>
      10 ∈ (Operations.collect s).spawns ∧ s.calls.EnteredOnlyBy 1 10 ∧
      (∀ o ∈ (s.pointers.of 2).toList ++ (s.pointers.of 9).toList,
        (s.pointers.obj o).isFirstField = true) ∧
      ∃ o ∈ (s.pointers.of 10).toList, Partitioning.IsData s.pointers o) = true := by
    decide +kernel
  obtain ⟨s, hs, hrun⟩ := exists_of_any_toOption hrun
  obtain ⟨hspawn, hentry, hfirst, o, ho, hdata⟩ := of_decide_eq_true hrun
  have hadmits {x : Escape} {v : ValueId} (hv : v = 2 ∨ v = 9) :
      Admits s.pointers x 10 v (some 1) := by
    refine .inr fun o ho => .inl (hfirst o (List.mem_append.2 ?_))
    rcases hv with rfl | rfl
    · exact .inl (TreeSet.mem_toList.2 ho)
    · exact .inr (TreeSet.mem_toList.2 ho)
  refine ⟨s, hfin, hs, hspawn, hentry, ⟨o, TreeSet.mem_toList.1 ho, hdata⟩, ?_⟩
  have hparams : ((Builder.ofScript linkedAggregates).func 1).params = [2] := by decide +kernel
  have hop₀ : (Builder.ofScript linkedAggregates).op 0 = .project 2 (some 1) none := by
    decide +kernel
  have hop₁ : (Builder.ofScript linkedAggregates).op 1 = .load 8 := by decide +kernel
  have hop₂ : (Builder.ofScript linkedAggregates).op 2 = .project 9 (some 1) none := by
    decide +kernel
  refine reveals_of_derives hfin hs hspawn hentry hparams ?_
  refine .project (.load (.project .argument (hadmits (.inl rfl)) ?_ hop₀ ?_) ?_ hop₁ ?_)
    (hadmits (.inr rfl)) ?_ hop₂ ?_
  all_goals decide +kernel

/-- A thread gets a pointer to the second field of an aggregate, moves on to the third one, and
writes it, as is done outside the thread, too. -/
def neighbouringField : List Command :=
  [.declare "main" 0, .declare "worker" 1, .declare "thread_create" 3, .const 0,
    .body 1, .append 1 0 (.project 2 (some 1) none), .append 1 0 (.store 8 7),
    .append 1 0 (.ret none),
    .body 0, .append 0 1 (.alloc false 0), .append 0 1 (.alloc true 3),
    .append 0 1 (.project 10 (some 1) none), .append 0 1 (.call (.direct 2) [9, 1, 11]),
    .append 0 1 (.project 10 (some 2) none), .append 0 1 (.store 13 7), .append 0 1 (.ret none)]

/-- What is derived from an argument does not always escape. -/
theorem not_forall_reveals : ¬∀ (p : Program) (c : Config) (s : Subject), p.Finished →
    Subject.prepare p c = .ok s → ∀ i ∈ (Operations.collect s).spawns, ∀ (f : FuncId)
    (q : ValueId) (qs : List ValueId), s.calls.EnteredOnlyBy f i → (p.func f).params = q :: qs →
    ∀ w, Derives p (fun _ _ => True) f q w →
      let m := Partitioning.of s (.collect s)
      Reveals s.pointers m (.of s (.collect s) m) i w := by
  intro hall
  have hfin : (Builder.ofScript neighbouringField).Finished :=
    Builder.finished_ofScript (by decide +kernel)
  have hrun : (Subject.prepare (Builder.ofScript neighbouringField) {}).toOption.any (fun s =>
      6 ∈ (Operations.collect s).spawns ∧ s.calls.EnteredOnlyBy 1 6 ∧
      (∃ o ∈ (s.pointers.of 8).toList, Partitioning.IsData s.pointers o) ∧
      let x := Escape.of s (.collect s) (.of s (.collect s))
      x.isForkVisible s.pointers 8 6 = false ∧ x.isGlobalVisible s.pointers 8 = false) = true := by
    decide +kernel
  obtain ⟨s, hs, hrun⟩ := exists_of_any_toOption hrun
  obtain ⟨hspawn, hentry, ⟨o, ho, hdata⟩, hfork, hglobal⟩ := of_decide_eq_true hrun
  have hparams : ((Builder.ofScript neighbouringField).func 1).params = [2] := by decide +kernel
  have hop : (Builder.ofScript neighbouringField).op 0 = .project 2 (some 1) none := by
    decide +kernel
  have hderives : Derives (Builder.ofScript neighbouringField) (fun _ _ => True) 1 2 8 :=
    .project .argument trivial (by decide +kernel) hop (by decide +kernel)
  have hreveals := hall _ {} s hfin hs 6 hspawn 1 2 [] hentry hparams 8 hderives
  rcases hreveals.visible o (TreeSet.mem_toList.1 ho) hdata with hvisible | hvisible
  · rw [hfork] at hvisible
    cases hvisible
  · rw [hglobal] at hvisible
    cases hvisible

end Escape

end DataRace
