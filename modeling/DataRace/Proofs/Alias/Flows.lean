import DataRace.Proofs.PointsTo.Edges
import Mathlib.Logic.Relation

/-!
# DataRace.Proofs.Alias.Flows

How the address of an object flows to the pointers that point to it.

A flows-to query follows copies, projections by nothing and values that go
through memory (`Moves`), and variable indices.  To find the pointers to a
field it starts from the base, and waits for a projection by that field or by a
variable index (`FlowsInto`).  It does not put two projections together, so it
follows a block only where constants project from its start (`Tracked`).  There
every object of a points-to set reaches the pointer along such edges
(`reaches_of_mem`).
-/

namespace DataRace

open Relation ObjectTable

theorem MemObject.isFirstField_iff {o : MemObject} :
    o.isFirstField = true ↔ o.field.getD 0 = 0 := by
  cases h : o.field <;> simp [isFirstField, h]

/-- The constant that an edge projects by. -/
def EdgeKind.offset : EdgeKind → Nat
  | .field k => k
  | _ => 0

instance {s : IdSet} {P : Nat → Prop} [DecidablePred P] : Decidable (∀ y ∈ s, P y) :=
  decidable_of_iff (∀ y ∈ s.toList, P y) (by simp only [Std.TreeSet.mem_toList])

instance {s : IdSet} {P : Nat → Prop} [DecidablePred P] : Decidable (∃ y ∈ s, P y) :=
  decidable_of_iff (∃ y ∈ s.toList, P y) (by simp only [Std.TreeSet.mem_toList])

namespace PointsTo

variable {t : PointsTo} {a b c : NodeId} {o x : ObjId} {k : Nat}

/-! ## tracked blocks -/

/-- No constant projects from a block to a field other than the first. -/
def Whole (t : PointsTo) (o : ObjId) : Prop :=
  ∀ e ∈ t.graph.edges, 0 < e.kind.offset → ∀ y ∈ t.of e.src, t.objs.baseOf y ≠ t.objs.baseOf o

/-- The projections in the block of an object can be followed one at a time: constants project from
the start of the block to a field of it, and a variable indexes a later field only in blocks that no
constant projects in. -/
structure Tracked (t : PointsTo) (o : ObjId) : Prop where
  known : (t.obj o).isUnknown = false
  field : ∀ e ∈ t.graph.edges, 0 < e.kind.offset → ∀ y ∈ t.of e.src,
    t.objs.baseOf y = t.objs.baseOf o →
    (t.obj y).isFirstField = true ∧ e.kind.offset < (t.obj (t.objs.baseOf o)).fieldCount
  index : ∀ e ∈ t.graph.edges, e.kind = .index → ∀ y ∈ t.of e.src,
    t.objs.baseOf y = t.objs.baseOf o → (t.obj y).isFirstField = true ∨ t.Whole o

/-- What a store may pass on to a load it may pass on through a tracked object. -/
def PassesTracked (t : PointsTo) : Prop :=
  ∀ e ∈ t.graph.edges, e.kind = .store → ∀ e' ∈ t.graph.edges, e'.kind = .load →
    ∀ o ∈ t.of e.dst, o ∈ t.of e'.src → ∃ o' ∈ t.of e.dst, o' ∈ t.of e'.src ∧ t.Tracked o'

instance : Decidable (t.Whole o) :=
  inferInstanceAs (Decidable (∀ e ∈ t.graph.edges, 0 < e.kind.offset → ∀ y ∈ t.of e.src, _))

instance : Decidable (t.Tracked o) :=
  decidable_of_iff (_ ∧ _ ∧ _) ⟨fun h => ⟨h.1, h.2.1, h.2.2⟩, fun h => ⟨h.known, h.field, h.index⟩⟩

instance : Decidable t.PassesTracked :=
  inferInstanceAs (Decidable (∀ e ∈ t.graph.edges, e.kind = .store → ∀ e' ∈ t.graph.edges,
    e'.kind = .load → ∀ o ∈ t.of e.dst, o ∈ t.of e'.src → ∃ o' ∈ t.of e.dst, _))

theorem Whole.congr (h : t.Whole x) (hbase : t.objs.baseOf x = t.objs.baseOf o) : t.Whole o := by
  unfold Whole at h ⊢
  rwa [hbase] at h

theorem Tracked.congr (h : t.Tracked x) (hbase : t.objs.baseOf x = t.objs.baseOf o)
    (hknown : (t.obj o).isUnknown = false) : t.Tracked o where
  known := hknown
  field := by
    have hfield := h.field
    rwa [hbase] at hfield
  index e he hk y hy hbase' :=
    (h.index e he hk y hy (hbase'.trans hbase.symm)).imp_right (·.congr hbase)

/-! ## paths -/

/-- What a node holds comes to another node, a first field perhaps for its base. -/
inductive Moves (t : PointsTo) : NodeId → NodeId → Prop
  | copy {a b : NodeId} (he : ⟨a, b, .copy⟩ ∈ t.graph.edges) : Moves t a b
  | first {a b : NodeId} (he : ⟨a, b, .field 0⟩ ∈ t.graph.edges) : Moves t a b
  | memory {a ptr q b : NodeId} {o : ObjId} (hstore : ⟨a, ptr, .store⟩ ∈ t.graph.edges)
    (hload : ⟨q, b, .load⟩ ∈ t.graph.edges) (hptr : ptr < t.graph.valueCount)
    (hq : q < t.graph.valueCount) (hoptr : o ∈ t.of ptr) (hoq : o ∈ t.of q) (ho : t.Tracked o) :
    Moves t a b

/-- What a node holds comes to another node, a field perhaps for its base. -/
def Follows (t : PointsTo) (a b : NodeId) : Prop := Moves t a b ∨ ⟨a, b, .index⟩ ∈ t.graph.edges

/-- What a node holds flows to another node. -/
def Flows (t : PointsTo) : NodeId → NodeId → Prop := ReflTransGen (Follows t)

/-- A field of what a node holds flows to another node. -/
def FlowsInto (t : PointsTo) (k : Nat) (a b : NodeId) : Prop :=
  ∃ m d, ReflTransGen (Moves t) a m ∧
    (⟨m, d, .field k⟩ ∈ t.graph.edges ∨ ⟨m, d, .index⟩ ∈ t.graph.edges) ∧ Flows t d b

/-- What a node holds flows to another node, or the given field of it. -/
def Reaches (t : PointsTo) : Option Nat → NodeId → NodeId → Prop
  | none => Flows t
  | some k => FlowsInto t k

theorem flows_of_moves (h : ReflTransGen (Moves t) a b) : Flows t a b :=
  ReflTransGen.mono (fun _ _ => .inl) _ _ h

theorem FlowsInto.tail (h : FlowsInto t k a b) (hstep : Follows t b c) : FlowsInto t k a c := by
  obtain ⟨m, d, hmoves, hedge, hflows⟩ := h
  exact ⟨m, d, hmoves, hedge, hflows.tail hstep⟩

theorem Reaches.tail {offset : Option Nat} (h : Reaches t offset a b) (hstep : Follows t b c) :
    Reaches t offset a c := by
  cases offset with
  | none => exact ReflTransGen.tail h hstep
  | some k => exact FlowsInto.tail h hstep

/-- Up to its first variable index, a flow is a movement. -/
theorem Flows.cases_index (h : Flows t a b) : ReflTransGen (Moves t) a b ∨ ∃ m d,
    ReflTransGen (Moves t) a m ∧ ⟨m, d, .index⟩ ∈ t.graph.edges ∧ Flows t d b := by
  induction h with
  | refl => exact .inl .refl
  | tail _ hstep ih =>
    obtain hmoves | ⟨m, d, hmoves, hindex, hflows⟩ := ih
    · obtain hstep | hstep := hstep
      · exact .inl (hmoves.tail hstep)
      · exact .inr ⟨_, _, hmoves, hstep, .refl⟩
    · exact .inr ⟨m, d, hmoves, hindex, hflows.tail hstep⟩

theorem Flows.into_index (h : Flows t a b) (he : ⟨b, c, .index⟩ ∈ t.graph.edges) :
    FlowsInto t k a c := by
  obtain hmoves | ⟨m, d, hmoves, hindex, hflows⟩ := h.cases_index
  · exact ⟨b, c, hmoves, .inr he, .refl⟩
  · exact ⟨m, d, hmoves, .inr hindex, hflows.tail (.inr he)⟩

theorem Flows.into_first (h : Flows t a b) (he : ⟨b, c, .field 0⟩ ∈ t.graph.edges) :
    FlowsInto t 0 a c := by
  obtain hmoves | ⟨m, d, hmoves, hindex, hflows⟩ := h.cases_index
  · exact ⟨b, c, hmoves, .inl he, .refl⟩
  · exact ⟨m, d, hmoves, .inr hindex, hflows.tail (.inl (.first he))⟩

/-! ## what flows are of -/

section

variable {v₀ v root : Nat} (halong : Along true t)
  (hlaid : ∀ {n o : Nat}, o ∈ t.nodePts n → t.objs.LaidAt o)

/-- A pointer points to a block at an offset. -/
def PointsInto (t : PointsTo) (v : ValueId) (root : ObjId) (k : Nat) : Prop :=
  ∃ o ∈ t.of v, t.objs.baseOf o = root ∧ (t.obj o).field.getD 0 = k

include halong hlaid

theorem PointsInto.moves (hstep : Moves t a b) (h : t.PointsInto a root k) (hk : k < UInt32.size)
    (hin : k = 0 ∨ k < (t.obj root).fieldCount) : t.PointsInto b root k := by
  obtain ⟨o, ho, rfl, hfield⟩ := h
  cases hstep with
  | copy he => exact ⟨o, halong.copy he ho, rfl, hfield⟩
  | memory hstore hload _ _ hptr hq _ =>
    exact ⟨o, halong.memory hstore hload hptr hq ho, rfl, hfield⟩
  | first he =>
    obtain ⟨x, hx⟩ := exists_project_zero (t := t.objs) (o := o) (hfield ▸ hk)
    obtain ⟨hbase, ⟨-, hsome⟩ | ⟨hout, rfl⟩⟩ := (hlaid ho).project hx
    · refine ⟨x, halong.field he ho hx, hbase, ?_⟩
      rw [obj, hsome]
      exact hfield
    · have hbelow : (t.obj (t.objs.baseOf o)).fieldCount ≤ k := hfield ▸ hout
      obtain rfl : k = 0 := hin.resolve_right (Nat.not_lt.2 hbelow)
      refine ⟨_, halong.field he ho hx, hbase, ?_⟩
      rw [obj, (hlaid ho).base.2]
      rfl

theorem PointsInto.index (he : ⟨a, b, .index⟩ ∈ t.graph.edges) (h : t.PointsInto a root 0) :
    t.PointsInto b root 0 ∧ (1 < (t.obj root).fieldCount → t.PointsInto b root 1) := by
  obtain ⟨o, ho, rfl, -⟩ := h
  have hin {y : Nat} (hy : y ∈ t.objs.allFields o) : y ∈ t.of b := halong.index he ho hy
  obtain ⟨hbase, hnone⟩ := (hlaid ho).base
  refine ⟨⟨_, hin List.mem_cons_self, hbase, by rw [obj, hnone]; rfl⟩, fun hcount => ?_⟩
  obtain ⟨hbase, hsome⟩ := (hlaid ho).field hcount
  have hmem : t.objs.baseOf o + 1 + 1 ∈ t.objs.allFields o :=
    List.mem_cons_of_mem _ (List.mem_map_of_mem (List.mem_range.2 hcount))
  exact ⟨_, hin hmem, hbase, by rw [obj, hsome]; rfl⟩

/-- A pointer that the address of a block flows to points to the start of the block, and to a later
field as well if the address is indexed on the way. -/
theorem pointsInto_of_flows (haddr : ⟨t.graph.objNode root, v₀, .addr⟩ ∈ t.graph.edges)
    (hroot : t.objs.IsRoot root) (h : Flows t v₀ v) : t.PointsInto v root 0 ∧
      (ReflTransGen (Moves t) v₀ v ∨ (1 < (t.obj root).fieldCount → t.PointsInto v root 1)) := by
  induction h with
  | refl =>
    refine ⟨⟨root, halong.addr haddr, hroot.base, ?_⟩, .inl .refl⟩
    rw [obj, hroot.field]
    rfl
  | tail _ hstep ih =>
    obtain ⟨hstart, hmoves⟩ := ih
    obtain hstep | hstep := hstep
    · refine ⟨hstart.moves halong hlaid hstep (by decide) (.inl rfl), ?_⟩
      exact hmoves.imp (·.tail hstep) fun h hcount =>
        (h hcount).moves halong hlaid hstep (by decide) (.inr hcount)
    · obtain ⟨hstart, hlater⟩ := hstart.index halong hlaid hstep
      exact ⟨hstart, .inr hlater⟩

end

/-! ## objects in sets -/

/-- The address of the base of an object flows to a pointer so that it points to the object. -/
def Brought (t : PointsTo) (v : ValueId) (o : ObjId) : Prop :=
  ∃ v₀, ⟨t.graph.objNode (t.objs.baseOf o), v₀, .addr⟩ ∈ t.graph.edges ∧
    t.objs.IsRoot (t.objs.baseOf o) ∧ Reaches t (t.obj o).field v₀ v ∧
      ((t.obj o).isFirstField = true ∨ t.Whole o → Flows t v₀ v)

theorem Brought.follow (h : t.Brought a o) (hstep : Follows t a b) : t.Brought b o := by
  obtain ⟨v₀, haddr, hroot, hreaches, hflows⟩ := h
  exact ⟨v₀, haddr, hroot, hreaches.tail hstep, fun ho => (hflows ho).tail hstep⟩

theorem brought_of_isRoot (he : ⟨t.graph.objNode o, a, .addr⟩ ∈ t.graph.edges)
    (ho : t.objs.IsRoot o) : t.Brought a o := by
  refine ⟨a, ?_, ?_, ?_, fun _ => .refl⟩
  · rwa [ho.base]
  · rwa [ho.base]
  · rw [obj, ho.field]
    exact ReflTransGen.refl

/-- A projection by nothing moves an object, or leads from a base to its first field. -/
theorem Brought.first (hprev : t.Brought a o) (ho : t.objs.LaidAt o)
    (he : ⟨a, b, .field 0⟩ ∈ t.graph.edges) (hx : t.objs.project o 0 = .ok x) : t.Brought b x := by
  obtain ⟨v₀, haddr, hroot, hreaches, hflows⟩ := hprev
  obtain ⟨hbase, hcase⟩ := ho.project hx
  refine ⟨v₀, hbase ▸ haddr, hbase ▸ hroot, ?_⟩
  have hstep : Follows t a b := .inl (.first he)
  rw [MemObject.isFirstField_iff] at hflows ⊢
  simp only [obj] at hreaches hflows ⊢
  obtain ⟨-, hsome⟩ | ⟨hout, rfl⟩ := hcase
  · rw [hsome, Option.getD_some, Nat.add_zero]
    refine ⟨?_, fun h => (hflows (h.imp_right (·.congr hbase))).tail hstep⟩
    cases hfield : (t.objs.get o).field with
    | none =>
      rw [hfield] at hreaches
      exact Flows.into_first hreaches he
    | some j =>
      rw [hfield] at hreaches
      exact FlowsInto.tail hreaches hstep
  · have hnone : (t.objs.get o).field = none := by
      cases hfield : (t.objs.get o).field with
      | none => rfl
      | some j =>
        have hinside := ho.inside hfield
        rw [hfield, Option.getD_some, Nat.add_zero] at hout
        omega
    rw [hnone] at hreaches hflows
    rw [ho.base.2]
    exact ⟨Reaches.tail hreaches hstep, fun _ => (hflows (.inl rfl)).tail hstep⟩

/-- A projection to a later field brings that field: the block is not indexed before, or a later
field would be projected here as well. -/
theorem Brought.later (halong : Along true t)
    (hlaid : ∀ {n o : Nat}, o ∈ t.nodePts n → t.objs.LaidAt o) (hprev : t.Brought a o)
    (htracked : t.Tracked o) (hk : 0 < k) (he : ⟨a, b, .field k⟩ ∈ t.graph.edges)
    (ho : o ∈ t.of a) (hx : t.objs.project o k = .ok x) : t.Brought b x := by
  obtain ⟨v₀, haddr, hroot, -, hflows⟩ := hprev
  obtain ⟨hbase, hcase⟩ := (hlaid ho).project hx
  obtain ⟨hfirst, hcount⟩ := htracked.field _ he hk o ho rfl
  rw [EdgeKind.offset] at hcount
  obtain ⟨-, hmoves⟩ := pointsInto_of_flows halong hlaid haddr hroot (hflows (.inl hfirst))
  have hmoves : ReflTransGen (Moves t) v₀ a := by
    refine hmoves.resolve_right fun hlater => ?_
    obtain ⟨y, hy, hybase, hyfield⟩ := hlater (by omega)
    have hyfirst := (htracked.field _ he hk y hy hybase).1
    rw [MemObject.isFirstField_iff, hyfield] at hyfirst
    cases hyfirst
  rw [MemObject.isFirstField_iff, obj] at hfirst
  rw [hfirst, Nat.zero_add] at hcase
  obtain ⟨-, hsome⟩ | ⟨hout, -⟩ := hcase
  · refine ⟨v₀, hbase ▸ haddr, hbase ▸ hroot, ?_, ?_⟩
    · rw [obj, hsome]
      exact ⟨a, b, hmoves, .inl he, .refl⟩
    · rw [MemObject.isFirstField_iff, obj, hsome, Option.getD_some]
      rintro (hzero | hwhole)
      · omega
      · exact absurd hbase.symm (hwhole _ he hk o ho)
  · exact absurd hcount (Nat.not_lt.2 hout)

/-- A variable index brings the whole block. -/
theorem Brought.index (hprev : t.Brought a o) (hlaid : t.objs.LaidAt o) (htracked : t.Tracked o)
    (he : ⟨a, b, .index⟩ ∈ t.graph.edges) (ho : o ∈ t.of a) (hx : x ∈ t.objs.allFields o) :
    t.Brought b x := by
  obtain ⟨v₀, haddr, hroot, -, hflows⟩ := hprev
  obtain ⟨hbase, hcase⟩ := hlaid.mem_allFields hx
  have hflow : Flows t v₀ a := hflows (htracked.index _ he rfl o ho rfl)
  refine ⟨v₀, hbase ▸ haddr, hbase ▸ hroot, ?_, fun _ => hflow.tail (.inr he)⟩
  obtain rfl | ⟨j, hj⟩ := hcase
  · rw [obj, hlaid.base.2]
    exact hflow.tail (.inr he)
  · rw [obj, hj]
    exact hflow.into_index he

/-- **Every tracked object of a set reaches its pointer** along the edges that a flows-to query
follows. -/
theorem reaches_of_mem {p : Program} (hp : p.Finished) (h : analyze p true = .ok t)
    (hflow : ∀ e ∈ t.graph.edges, Solver.isFlow e.kind = true → e.kind = .copy)
    (hmemory : t.PassesTracked) {v : Nat} (hv : v < p.values.size) (ho : o ∈ t.of v)
    (htracked : t.Tracked o) :
    ∃ v₀, ⟨t.graph.objNode (t.objs.baseOf o), v₀, .addr⟩ ∈ t.graph.edges ∧
      Reaches t (t.obj o).field v₀ v := by
  have halong := along hp h
  have hlaid {n o : Nat} (ho : o ∈ t.nodePts n) : t.objs.LaidAt o := laidAt_of_mem hp h ho
  have hcount := (graphInv hp h).valueCount
  have hback {n m o x : Nat} (hx : x ∈ t.nodePts n) (ho : o ∈ t.nodePts m)
      (hbase : t.objs.baseOf x = t.objs.baseOf o) (h : t.Tracked x) : t.Tracked o :=
    h.congr hbase ((hlaid hx).known_of_baseOf_eq (hlaid ho) hbase h.known)
  have hbrought : Passed p true t fun v o => t.Tracked o → t.Brought v o := by
    constructor
    case addr => exact fun he ho _ => brought_of_isRoot he ho
    case copy => exact fun _ he _ hprev htracked => (hprev htracked).follow (.inl (.copy he))
    case memory =>
      intro a ptr q b o x hptr hq hstore hload hoptr hoq _ hprev htracked
      obtain ⟨o', hoptr', hoq', ho'⟩ := hmemory _ hstore rfl _ hload rfl o hoptr hoq
      exact (hprev htracked).follow
        (.inl (.memory hstore hload (hcount ▸ hptr) (hcount ▸ hq) hoptr' hoq' ho'))
    case field =>
      intro a b k o x _ he ho hprev hx htracked
      have htracked' := hback (halong.field he ho hx) ho ((hlaid ho).project hx).1 htracked
      rcases Nat.eq_zero_or_pos k with rfl | hk
      · exact (hprev htracked').first (hlaid ho) he hx
      · exact .later halong hlaid (hprev htracked') htracked' hk he ho hx
    case index =>
      intro a b o x _ he ho hprev hx htracked
      have htracked' := hback (halong.index he ho hx) ho ((hlaid ho).mem_allFields hx).1 htracked
      exact (hprev htracked').index (hlaid ho) htracked' he ho hx
    case unrecognised =>
      intro r _ htracked
      have hunknown := isUnknown_obj_unknown hp h
      rw [htracked.known] at hunknown
      cases hunknown
  obtain ⟨v₀, haddr, -, hreaches, -⟩ := mem_of_induction hp h hflow hbrought hv ho htracked
  exact ⟨v₀, haddr, hreaches⟩

end PointsTo

end DataRace
