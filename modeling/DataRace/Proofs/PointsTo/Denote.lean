import DataRace.Proofs.PointsTo.Edges

/-!
# DataRace.Proofs.PointsTo.Denote

Which pointers denote one object.

Two pointers must alias if both point to one and the same object and that object
exists once.  Where an object comes from tells which part of memory it lies in and
which function makes it, so the objects on the stack are those of `alloc`
instructions that are not on the heap.

* `mustAlias_iff` — pointers that denote one object;
* `Solver.objects_madeBy` — what the object table says of an origin;
* `Denotes.isSingleton_iff` — pointers that denote an object of no recursive function.
-/

namespace DataRace

open Std

namespace PointsTo

variable {p : Program} {variableIndex : Bool} {t : PointsTo} {a b v o : Nat}

/-- An object exists once: it is known, is not on the heap, is no function and no array. -/
structure ExistsOnce (t : PointsTo) (o : ObjId) : Prop where
  known : (t.obj o).isUnknown = false
  notHeap : (t.obj o).isHeap = false
  notFunction : (t.obj o).isFunction = false
  notArray : t.objs.isArray o = false

/-- A pointer points to one object, which exists once, and to nothing else. -/
structure Denotes (t : PointsTo) (v : ValueId) (o : ObjId) : Prop where
  mem_iff : ∀ {x}, x ∈ t.of v ↔ x = o
  once : t.ExistsOnce o

theorem only?_eq_some_iff : t.only? v = some o ↔ ∀ {x}, x ∈ t.of v ↔ x = o := by
  have hsingle (os : List ObjId) : only?.single os = some o ↔ os = [o] := by
    rcases os with _ | ⟨a, _ | ⟨b, os⟩⟩ <;> simp [only?.single]
  rw [only?, hsingle]
  constructor
  · intro hlist x
    rw [← TreeSet.mem_toList, hlist, List.mem_singleton]
  · intro hmem
    have hnodup := IdSet.nodup_toList (t.of v)
    have hperm : (t.of v).toList.Perm [o] := by
      refine (List.perm_ext_iff_of_nodup hnodup (List.nodup_singleton o)).2 fun x => ?_
      rw [TreeSet.mem_toList, List.mem_singleton]
      exact hmem
    exact List.perm_singleton.1 hperm

/-- Pointers must alias exactly if they denote the same object. -/
theorem mustAlias_iff : t.mustAlias a b = true ↔ ∃ o, t.Denotes a o ∧ t.Denotes b o := by
  unfold mustAlias
  cases hone : t.only? a with
  | none =>
    refine iff_of_false Bool.false_ne_true fun ⟨o, ho, _⟩ => ?_
    rw [only?_eq_some_iff.2 ho.mem_iff] at hone
    cases hone
  | some o =>
    have hmem {x : Nat} : x ∈ t.of a ↔ x = o := only?_eq_some_iff.1 hone
    simp only [Bool.and_eq_true, Bool.not_eq_true', beq_iff_eq]
    constructor
    · rintro ⟨⟨⟨⟨hb, hknown⟩, hheap⟩, hfun⟩, harray⟩
      have honce : t.ExistsOnce o := ⟨hknown, hheap, hfun, harray⟩
      exact ⟨o, ⟨hmem, honce⟩, only?_eq_some_iff.1 hb, honce⟩
    · rintro ⟨o', ha, hb⟩
      obtain rfl : o' = o := hmem.1 (ha.mem_iff.2 rfl)
      obtain ⟨hknown, hheap, hfun, harray⟩ := ha.once
      exact ⟨⟨⟨⟨only?_eq_some_iff.2 hb.mem_iff, hknown⟩, hheap⟩, hfun⟩, harray⟩

/-- A pointer must alias itself exactly if it denotes one object. -/
theorem mustAlias_self_iff : t.mustAlias v v = true ↔ ∃ o, t.Denotes v o := by
  simp only [mustAlias_iff, and_self]

/-- A pointer that denotes an object is a singleton unless a recursive function makes the object on
its stack. -/
theorem Denotes.isSingleton_iff {recursive : IdSet} (h : t.Denotes v o) :
    t.isSingleton recursive v = true ↔
      ¬((t.obj o).region = .stack ∧ ∃ f, (t.obj o).func = some f ∧ f ∈ recursive) := by
  obtain ⟨hmem, honce⟩ := h
  simp only [isSingleton, only?_eq_some_iff.2 hmem, honce.known, honce.notHeap, honce.notArray,
    Bool.not_false, Bool.true_and, Bool.not_eq_true', ← Bool.not_eq_true, Bool.and_eq_true,
    decide_eq_true_eq, Option.any_eq_true, TreeSet.contains_iff_mem]

/-! ## what an origin tells -/

/-- An object lies where its origin puts it and belongs to the function that makes it. -/
def MadeBy (p : Program) (x : MemObject) : Prop :=
  match x.origin with
  | .alloc i => i < p.insts.size ∧ ∃ heap fields, p.op i = .alloc heap fields ∧
      x.region = (if heap then .heap else .stack) ∧ x.func = some (p.funcOf i)
  | .global _ => x.region = .global
  | .function _ => x.region = .function
  | .unknown => x.region = .unknown

namespace Solver

open ObjectTable

theorem foldl_addEntity_madeBy {α : Type} {region : Region} {origin : Nat → Origin}
    {fields : α → Nat} {loc : α → Option Location} {name : α → String} (xs : List (α × Nat))
    {os : Array ObjId × ObjectTable} (hold : ∀ o < os.2.size, MadeBy p (os.2.get o))
    (hnew : ∀ (x : MemObject) (k : Nat), x.region = region → x.origin = origin k → MadeBy p x) :
    let r := xs.foldl (addEntity region origin fields loc name) os
    ∀ o < r.2.size, MadeBy p (r.2.get o) :=
  List.foldlRecOn (motive := fun r : Array ObjId × ObjectTable =>
    ∀ o < r.2.size, MadeBy p (r.2.get o)) xs _ hold fun _ hr x _ =>
      forall_add hr fun y hregion horigin _ => hnew y x.2 hregion horigin

/-- All objects of a program are where their origins put them. -/
theorem objects_madeBy : ∀ o < (objects p).objs.size, MadeBy p ((objects p).objs.get o) := by
  have hglobals : ∀ o < (globalStage p).2.size, MadeBy p ((globalStage p).2.get o) :=
    foldl_addEntity_madeBy _ (fun o ho => absurd ho (Nat.not_lt_zero o))
    fun x k hregion horigin => by
      rw [MadeBy, horigin]
      exact hregion
  have hfuncs : ∀ o < (functionStage p).2.size, MadeBy p ((functionStage p).2.get o) :=
    foldl_addEntity_madeBy _ hglobals fun x k hregion horigin => by
      rw [MadeBy, horigin]
      exact hregion
  have hallocs : ∀ o < (allocStage p).2.size, MadeBy p ((allocStage p).2.get o) := by
    refine List.foldlRecOn (motive := fun r : IdMap ObjId × ObjectTable =>
      ∀ o < r.2.size, MadeBy p (r.2.get o)) _ _ hfuncs fun r hr i hi => ?_
    unfold addAlloc
    split
    · next heap fields hop =>
      refine forall_add hr fun x hregion horigin hfunc => ?_
      rw [MadeBy, horigin]
      exact ⟨List.mem_range.1 hi, heap, fields, hop, hregion, hfunc⟩
    · exact hr
  rw [objs_objects]
  refine forall_add (P := MadeBy p) hallocs fun x hregion horigin _ => ?_
  rw [MadeBy, horigin]
  exact hregion

end Solver

/-- The analysis leaves the objects where their origins put them. -/
theorem madeBy_of_lt (hp : p.Finished) (h : analyze p variableIndex = .ok t)
    (ho : o < t.objs.size) :
    MadeBy p (t.obj o) := by
  obtain ⟨s, rfl, hsolved⟩ := exists_solved hp h
  have hobjs := hsolved.ready.inv.objs
  have hmade := Solver.objects_madeBy (p := p) o (hobjs.size_eq ▸ ho)
  rw [MadeBy, ← hobjs.origin_eq, ← hobjs.region_eq, ← hobjs.func_eq] at hmade
  exact hmade

/-- An object on the stack is that of an allocation, in the function of the allocation. -/
theorem stack_iff (hp : p.Finished) (h : analyze p variableIndex = .ok t) (ho : o < t.objs.size)
    {P : FuncId → Prop} : (t.obj o).region = .stack ∧ (∃ f, (t.obj o).func = some f ∧ P f) ↔
      ∃ i fields, (t.obj o).origin = .alloc i ∧ p.op i = .alloc false fields ∧ P (p.funcOf i) := by
  have hmade := madeBy_of_lt hp h ho
  unfold MadeBy at hmade
  split at hmade
  · next i horigin =>
    obtain ⟨-, heap, fields, hop, hregion, hfunc⟩ := hmade
    rw [hregion, hfunc]
    simp only [horigin, Origin.alloc.injEq, exists_and_left, exists_eq_left', hop,
      Operation.alloc.injEq]
    cases heap <;> simp
  all_goals
    next horigin =>
    rw [hmade, horigin]
    simp

end PointsTo

end DataRace
