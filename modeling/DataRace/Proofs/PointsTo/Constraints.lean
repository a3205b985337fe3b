import DataRace.Proofs.PointsTo.Objects
import Mathlib.Data.Set.Basic

/-!
# DataRace.Proofs.PointsTo.Constraints

What the instructions of a program ask of points-to sets.

An `Assignment` gives every value and every object the objects it may point
to, every call the functions it may reach, every thread start its routines and
every join its spawns.  It is `Closed` if it meets the constraints of all
instructions.  Closed assignments are closed under intersection
(`Closed.inter`), so there is a least one; the greatest one that makes sense
for a program is `Assignment.full`.
-/

namespace DataRace

open PointsTo PointsTo.Solver

/-- Who points to what, and who calls, starts and joins whom. -/
structure Assignment where
  of : ValueId → Set ObjId
  /-- What an object may hold. -/
  contents : ObjId → Set ObjId
  callees : InstId → Set FuncId
  spawnees : InstId → Set FuncId
  /-- The spawns a join may wait for. -/
  joined : InstId → Set InstId

/-- The assignment that a result stands for. -/
def PointsTo.assignment (t : PointsTo) : Assignment where
  of v := {o | o ∈ t.of v}
  contents o := {x | x ∈ t.contents o}
  callees i := {f | f ∈ t.callees i}
  spawnees i := {f | f ∈ t.spawnees i}
  joined j := {s | s ∈ t.joinedSpawns j}

namespace Assignment

/-- Two pointers share an object, or one may be anything and the other is something. -/
def MayAlias (A : Assignment) (unknown : ObjId) (a b : ValueId) : Prop :=
  (A.of a ∩ A.of b).Nonempty ∨
    (unknown ∈ A.of a ∨ unknown ∈ A.of b) ∧ (A.of a).Nonempty ∧ (A.of b).Nonempty

/-- The objects that an index chosen at run time reaches. -/
def indexed (t : ObjectTable) (variableIndex : Bool) (o : ObjId) : List ObjId :=
  if variableIndex then t.allFields o else [t.baseOf o]

/-- The assignment meets the constraints of every instruction. -/
structure Closed (p : Program) (variableIndex : Bool) (A : Assignment) : Prop where
  global : ∀ {g}, g < p.globals.size → (objects p).globalObj g ∈ A.of (p.global g).addr
  function : ∀ {f}, f < p.funcs.size → (objects p).funcObj f ∈ A.of (p.func f).addr
  alloc : ∀ {i heap fields r}, p.op i = .alloc heap fields → p.result i = some r →
    ∃ o, (objects p).allocObj i = some o ∧ o ∈ A.of r
  cast : ∀ {i src r}, p.op i = .cast src → p.result i = some r → A.of src ⊆ A.of r
  phi : ∀ {i ins r v b}, p.op i = .phi ins → p.result i = some r → (v, b) ∈ ins → A.of v ⊆ A.of r
  load : ∀ {i ptr r o}, p.op i = .load ptr → p.result i = some r → o ∈ A.of ptr →
    A.contents o ⊆ A.of r
  store : ∀ {i ptr val o}, p.op i = .store ptr val → o ∈ A.of ptr → A.of val ⊆ A.contents o
  field : ∀ {i base k idx r o o'}, p.op i = .project base (some k) idx → p.result i = some r →
    o ∈ A.of base → (objects p).objs.project o k = .ok o' → o' ∈ A.of r
  index : ∀ {i base idx r o o'}, p.op i = .project base none idx → p.result i = some r →
    o ∈ A.of base → o' ∈ indexed (objects p).objs variableIndex o → o' ∈ A.of r
  /-- A call reaches the function it names. -/
  direct : ∀ {i f}, p.directCallee i = some f → f ∈ A.callees i
  /-- A call through a pointer reaches every function the pointer may point to. -/
  indirect : ∀ {i v args o f}, p.op i = .call (.indirect v) args → o ∈ A.of v →
    ((objects p).obj o).origin = .function f → f ∈ A.callees i
  argument : ∀ {i f a q}, f ∈ A.callees i → (p.func f).isDeclaration = false →
    (a, q) ∈ (p.callArgs i).zip (p.func f).params → A.of a ⊆ A.of q
  returned : ∀ {i f v r}, f ∈ A.callees i → (p.func f).isDeclaration = false →
    returned? p f = some v → p.result i = some r → A.of v ⊆ A.of r
  /-- Unrecognised library code returns anything. -/
  unrecognised : ∀ {i f r}, f ∈ A.callees i → (p.func f).isDeclaration = true →
    p.libraryFunc? f = none → p.result i = some r → (objects p).unknown ∈ A.of r
  /-- A thread start runs every routine its operand may point to. -/
  start : ∀ {i v o f}, p.isThreadStart i = true → p.routine i = some v → o ∈ A.of v →
    ((objects p).obj o).origin = .function f → f ∈ A.spawnees i
  startArgument : ∀ {i f a q qs}, f ∈ A.spawnees i → (p.func f).isDeclaration = false →
    p.routineArg i = some a → (p.func f).params = q :: qs → A.of a ⊆ A.of q
  /-- A join waits for every spawn whose thread id its own may have been loaded from. -/
  join : ∀ {j s ptr r tid}, p.isJoin j = true → p.isSpawn s = true → joinPointer? p j = some ptr →
    p.result j = some r → p.threadId s = some tid → A.MayAlias (objects p).unknown ptr tid →
    s ∈ A.joined j ∧ ∀ {f v}, f ∈ A.spawnees s → returned? p f = some v → A.of v ⊆ A.of r

/-- One assignment has no more than another on the entities of the program. -/
structure Within (p : Program) (A B : Assignment) : Prop where
  of : ∀ {v}, v < p.values.size → A.of v ⊆ B.of v
  contents : ∀ {o}, o < (objects p).objs.size → A.contents o ⊆ B.contents o
  callees : ∀ {i}, A.callees i ⊆ B.callees i
  spawnees : ∀ {i}, A.spawnees i ⊆ B.spawnees i
  joined : ∀ {j}, A.joined j ⊆ B.joined j

/-! ## intersection -/

/-- What two assignments agree on. -/
def inter (A B : Assignment) : Assignment where
  of v := A.of v ∩ B.of v
  contents o := A.contents o ∩ B.contents o
  callees i := A.callees i ∩ B.callees i
  spawnees i := A.spawnees i ∩ B.spawnees i
  joined j := A.joined j ∩ B.joined j

variable {p : Program} {variableIndex : Bool} {A B : Assignment}

theorem MayAlias.mono {unknown : ObjId} {a b : ValueId} (ha : A.of a ⊆ B.of a)
    (hb : A.of b ⊆ B.of b) (h : A.MayAlias unknown a b) : B.MayAlias unknown a b := by
  obtain ⟨o, hoa, hob⟩ | ⟨hu, hna, hnb⟩ := h
  · exact .inl ⟨o, ha hoa, hb hob⟩
  · exact .inr ⟨hu.imp (@ha _) (@hb _), hna.mono ha, hnb.mono hb⟩

/-- Every constraint asks for more when more is given, so what two closed assignments agree on is
closed. -/
theorem Closed.inter (hA : A.Closed p variableIndex) (hB : B.Closed p variableIndex) :
    (A.inter B).Closed p variableIndex where
  global hg := ⟨hA.global hg, hB.global hg⟩
  function hf := ⟨hA.function hf, hB.function hf⟩
  alloc hop hr := by
    obtain ⟨o, ho, hoA⟩ := hA.alloc hop hr
    obtain ⟨o', ho', hoB⟩ := hB.alloc hop hr
    obtain rfl := Option.some.inj (ho.symm.trans ho')
    exact ⟨o, ho, hoA, hoB⟩
  cast hop hr := Set.inter_subset_inter (hA.cast hop hr) (hB.cast hop hr)
  phi hop hr hv := Set.inter_subset_inter (hA.phi hop hr hv) (hB.phi hop hr hv)
  load hop hr ho := Set.inter_subset_inter (hA.load hop hr ho.1) (hB.load hop hr ho.2)
  store hop ho := Set.inter_subset_inter (hA.store hop ho.1) (hB.store hop ho.2)
  field hop hr ho hk := ⟨hA.field hop hr ho.1 hk, hB.field hop hr ho.2 hk⟩
  index hop hr ho hk := ⟨hA.index hop hr ho.1 hk, hB.index hop hr ho.2 hk⟩
  direct hf := ⟨hA.direct hf, hB.direct hf⟩
  indirect hop ho hf := ⟨hA.indirect hop ho.1 hf, hB.indirect hop ho.2 hf⟩
  argument hf hd hq := Set.inter_subset_inter (hA.argument hf.1 hd hq) (hB.argument hf.2 hd hq)
  returned hf hd hv hr :=
    Set.inter_subset_inter (hA.returned hf.1 hd hv hr) (hB.returned hf.2 hd hv hr)
  unrecognised hf hd hl hr := ⟨hA.unrecognised hf.1 hd hl hr, hB.unrecognised hf.2 hd hl hr⟩
  start hi hv ho hf := ⟨hA.start hi hv ho.1 hf, hB.start hi hv ho.2 hf⟩
  startArgument hf hd ha hq :=
    Set.inter_subset_inter (hA.startArgument hf.1 hd ha hq) (hB.startArgument hf.2 hd ha hq)
  join hj hs hptr hr htid h := by
    obtain ⟨hjA, hflowA⟩ := hA.join hj hs hptr hr htid
      (h.mono Set.inter_subset_left Set.inter_subset_left)
    obtain ⟨hjB, hflowB⟩ := hB.join hj hs hptr hr htid
      (h.mono Set.inter_subset_right Set.inter_subset_right)
    exact ⟨⟨hjA, hjB⟩, fun hf hv => Set.inter_subset_inter (hflowA hf.1 hv) (hflowB hf.2 hv)⟩

/-! ## the greatest assignment -/

variable (p) in
/-- Everything points to everything, but the address of a function points to that function. -/
def full : Assignment where
  of v := {o | o < (objects p).objs.size ∧
    ∀ f, p.asFunction v = some f → ((objects p).obj o).origin = .function f}
  contents _ := {o | o < (objects p).objs.size}
  callees _ := {f | f < p.funcs.size}
  spawnees _ := {f | f < p.funcs.size}
  joined _ := Set.univ

section full

variable (hp : p.WellFormed)

include hp

theorem asFunction_result {i r : Nat} (h : p.result i = some r) : p.asFunction r = none := by
  rw [Program.asFunction, (hp.result_iff.1 h).2]

theorem asFunction_param {f q : Nat} (h : q ∈ (p.func f).params) : p.asFunction q = none := by
  obtain ⟨k, hk⟩ := hp.param_def h
  rw [Program.asFunction, hk]

theorem mem_full_of_result {i r o : Nat} (h : p.result i = some r)
    (ho : o < (objects p).objs.size) : o ∈ (full p).of r :=
  ⟨ho, fun f hf => by rw [asFunction_result hp h] at hf; cases hf⟩

theorem mem_full_of_param {f q o : Nat} (h : q ∈ (p.func f).params)
    (ho : o < (objects p).objs.size) : o ∈ (full p).of q :=
  ⟨ho, fun f hf => by rw [asFunction_param hp h] at hf; cases hf⟩

theorem closed_full : (full p).Closed p variableIndex where
  global {g} hg := by
    refine ⟨globalObj_lt hg, fun f hf => ?_⟩
    rw [Program.asFunction, hp.global_def hg] at hf
    cases hf
  function {f} hf := by
    refine ⟨funcObj_lt hf, fun g hg => ?_⟩
    rw [Program.asFunction, (hp.addr_iff.1 ⟨hf, rfl⟩).2] at hg
    cases hg
    exact origin_funcObj hf
  alloc {i _ _ r} hop hr := by
    obtain ⟨o, ho⟩ := exists_allocObj (Program.lt_of_result hr) hop
    exact ⟨o, ho, mem_full_of_result hp hr (allocObj_lt ho)⟩
  cast _ hr o ho := mem_full_of_result hp hr ho.1
  phi _ hr _ o ho := mem_full_of_result hp hr ho.1
  load _ hr _ o ho := mem_full_of_result hp hr ho
  store _ _ o ho := ho.1
  field _ hr ho hk := mem_full_of_result hp hr (objects_valid.project_lt ho.1 hk)
  index _ hr ho hk := by
    refine mem_full_of_result hp hr ?_
    unfold indexed at hk
    split at hk
    · exact objects_valid.allFields_lt ho.1 hk
    · rw [List.mem_singleton.1 hk]
      exact objects_valid.baseOf_lt ho.1
  direct hf := hp.callee_lt hf
  indirect _ _ hf := lt_of_origin hf
  argument _ _ hq o ho := mem_full_of_param hp (List.of_mem_zip hq).2 ho.1
  returned _ _ _ hr o ho := mem_full_of_result hp hr ho.1
  unrecognised _ _ _ hr := mem_full_of_result hp hr unknown_lt
  start _ _ _ hf := lt_of_origin hf
  startArgument _ _ _ hq o ho := mem_full_of_param hp (hq ▸ List.mem_cons_self) ho.1
  join _ _ _ hr _ _ := ⟨trivial, fun _ _ o ho => mem_full_of_result hp hr ho.1⟩

end full

end Assignment

end DataRace
