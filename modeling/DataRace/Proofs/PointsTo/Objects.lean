import DataRace.PointsTo.Solver
import DataRace.Proofs.Collection
import DataRace.Proofs.Program.Finished

/-!
# DataRace.Proofs.PointsTo.Objects

The object table of a program.

Every object lies in one block: a base followed by its fields.  `Valid` says
that the block of an object is inside the table, so no projection leaves it:

* `Valid.project_lt`, `Valid.allFields_lt`: a projection answers an object;
* `objects_valid`: the table of a program is valid;
* `origin_funcObj`, `exists_allocObj`: functions and allocations have theirs;
* `SameBlocks`: marking arrays changes no block.
-/

namespace DataRace

open PointsTo

namespace ObjectTable

/-- The block of every object ends inside the table. -/
def Valid (t : ObjectTable) : Prop :=
  ∀ {o b : Nat}, o < t.size → t.baseOf o = b → b + (t.get b).fieldCount < t.size

/-- A table that continues another one. -/
structure Continues (t t' : ObjectTable) : Prop where
  size_le : t.size ≤ t'.size
  get_eq : ∀ {o : Nat}, o < t.size → t'.get o = t.get o

theorem Continues.refl (t : ObjectTable) : t.Continues t := ⟨Nat.le_refl _, fun _ => rfl⟩

theorem Continues.trans {t u w : ObjectTable} (h : t.Continues u) (h' : u.Continues w) :
    t.Continues w where
  size_le := Nat.le_trans h.size_le h'.size_le
  get_eq ho := (h'.get_eq (Nat.lt_of_lt_of_le ho h.size_le)).trans (h.get_eq ho)

/-! ## adding objects -/

section add

variable (t : ObjectTable) (region : Region) (origin : Origin) (fields : Nat)
  (func : Option FuncId) (loc : Option Location) (name : String)

theorem size_add : (t.add region origin fields func loc name).2.size = t.size + 1 + fields := by
  simp only [add, size, List.foldl_push_eq_append, Array.size_append, Array.size_push,
    List.size_toArray, List.length_map, List.length_range]

/-- The objects a table had before an addition stay. -/
theorem continues_add : t.Continues (t.add region origin fields func loc name).2 where
  size_le := by
    rw [size_add]
    omega
  get_eq {o} h := by
    simp only [add, get, size, List.foldl_push_eq_append, Array.getD_eq_getD_getElem?] at *
    rw [Array.getElem?_append_left (by rw [Array.size_push]; omega), Array.getElem?_push,
      if_neg (by omega)]

/-- The added objects form one block. -/
theorem get_add {o : Nat} (hlo : t.size ≤ o) (hhi : o < t.size + 1 + fields) :
    let obj := (t.add region origin fields func loc name).2.get o
    obj.base = t.size ∧ obj.origin = origin ∧ (o = t.size → obj.fieldCount = fields) := by
  simp only [add, get, size, List.foldl_push_eq_append, Array.getD_eq_getD_getElem?] at *
  by_cases heq : o = t.objs.size
  · rw [Array.getElem?_append_left (by rw [Array.size_push]; omega), Array.getElem?_push,
      if_pos heq]
    exact ⟨rfl, rfl, fun _ => rfl⟩
  · rw [Array.getElem?_append_right (by rw [Array.size_push]; omega), Array.size_push,
      List.getElem?_toArray, List.getElem?_map, List.getElem?_range (by omega)]
    exact ⟨rfl, rfl, fun h => absurd h heq⟩

theorem Valid.add {t : ObjectTable} (h : t.Valid) :
    (t.add region origin fields func loc name).2.Valid := by
  intro o b ho hb
  have hsize := size_add t region origin fields func loc name
  have hcont := continues_add t region origin fields func loc name
  rw [hsize] at ho ⊢
  by_cases hold : o < t.size
  · rw [baseOf, hcont.get_eq hold] at hb
    have hbase := h hold hb
    rw [hcont.get_eq (by omega)]
    omega
  · have hnew := get_add t region origin fields func loc name (Nat.le_of_not_lt hold) ho
    have hroot := get_add t region origin fields func loc name (Nat.le_refl t.size) (by omega)
    rw [baseOf, hnew.1] at hb
    subst hb
    have hcount := hroot.2.2 rfl
    rw [hcount]
    omega

end add

/-- An object of the grown table is an old one or has the origin of the addition. -/
theorem origin_add {t : ObjectTable} {region : Region} {origin : Origin} {fields : Nat}
    {func : Option FuncId} {loc : Option Location} {name : String} {o : Nat}
    (h : o < (t.add region origin fields func loc name).2.size) :
    o < t.size ∨ ((t.add region origin fields func loc name).2.get o).origin = origin := by
  rw [size_add] at h
  by_cases hold : o < t.size
  · exact .inl hold
  · exact .inr (get_add t region origin fields func loc name (Nat.le_of_not_lt hold) h).2.1

/-- What holds of the objects of a table, and of all that are made in one place, holds of the table
after they are added. -/
theorem forall_add {t : ObjectTable} {region : Region} {origin : Origin} {fields : Nat}
    {func : Option FuncId} {loc : Option Location} {name : String} {P : MemObject → Prop}
    (hold : ∀ o < t.size, P (t.get o))
    (hnew : ∀ x : MemObject, x.region = region → x.origin = origin → x.func = func → P x) :
    ∀ o < (t.add region origin fields func loc name).2.size,
      P ((t.add region origin fields func loc name).2.get o) := by
  intro o ho
  rw [size_add] at ho
  by_cases hlt : o < t.size
  · rw [(continues_add ..).get_eq hlt]
    exact hold o hlt
  · simp only [add, get, size, List.foldl_push_eq_append, Array.getD_eq_getD_getElem?] at *
    by_cases heq : o = t.objs.size
    · rw [Array.getElem?_append_left (by rw [Array.size_push]; omega), Array.getElem?_push,
        if_pos heq]
      exact hnew _ rfl rfl rfl
    · rw [Array.getElem?_append_right (by rw [Array.size_push]; omega), Array.size_push,
        List.getElem?_toArray, List.getElem?_map, List.getElem?_range (by omega)]
      exact hnew _ rfl rfl rfl

/-! ## adding one object for each entity -/

section entities

variable {α : Type} (region : Region) (origin : Nat → Origin) (fields : α → Nat)
  (loc : α → Option Location) (name : α → String)

/-- Add an object for an entity and note it at the entity's position. -/
def addEntity (os : Array ObjId × ObjectTable) (x : α × Nat) : Array ObjId × ObjectTable :=
  let (o, t) := os.2.add region (origin x.2) (fields x.1) none (loc x.1) (name x.1)
  (os.1.push o, t)

/-- Each of the first `n` entities has an object of its origin. -/
def Holds (os : Array ObjId × ObjectTable) (n : Nat) : Prop :=
  os.1.size = n ∧ ∀ k < n, os.1.getD k 0 < os.2.size ∧ (os.2.get (os.1.getD k 0)).origin = origin k

variable {region origin fields loc name}

theorem Holds.addEntity {os : Array ObjId × ObjectTable} {n : Nat} (h : Holds origin os n) (x : α) :
    Holds origin (addEntity region origin fields loc name os (x, n)) (n + 1) := by
  obtain ⟨hsize, hget⟩ := h
  have hcont := continues_add os.2 region (origin n) (fields x) none (loc x) (name x)
  refine ⟨by rw [ObjectTable.addEntity, Array.size_push, hsize], fun k hk => ?_⟩
  simp only [ObjectTable.addEntity, Array.getD_eq_getD_getElem?, Array.getElem?_push] at hget ⊢
  by_cases heq : k = n
  · subst heq
    rw [if_pos hsize.symm]
    have hnew := get_add os.2 region (origin k) (fields x) none (loc x) (name x)
      (Nat.le_refl os.2.size) (by omega)
    refine ⟨?_, hnew.2.1⟩
    rw [size_add]
    exact Nat.lt_of_lt_of_le (Nat.lt_succ_self _) (Nat.le_add_right _ _)
  · rw [if_neg (by omega)]
    obtain ⟨hlt, horg⟩ := hget k (by omega)
    exact ⟨Nat.lt_of_lt_of_le hlt hcont.size_le, by rw [hcont.get_eq hlt, horg]⟩

variable (region origin fields loc name) in
theorem foldl_addEntity (xs : List α) {t : Array ObjId × ObjectTable} {n : Nat}
    (hv : t.2.Valid) (h : Holds origin t n) :
    let r := (xs.zipIdx n).foldl (addEntity region origin fields loc name) t
    r.2.Valid ∧ t.2.Continues r.2 ∧ Holds origin r (n + xs.length) ∧
      r.2.unknown? = t.2.unknown? ∧
      ∀ o < r.2.size, o < t.2.size ∨ ∃ k < n + xs.length, (r.2.get o).origin = origin k := by
  induction xs generalizing t n with
  | nil => exact ⟨hv, .refl _, h, rfl, fun o ho => .inl ho⟩
  | cons x xs ih =>
    rw [List.zipIdx_cons, List.foldl_cons]
    have hcont := continues_add t.2 region (origin n) (fields x) none (loc x) (name x)
    obtain ⟨hv', hcont', hholds, hunk, horg⟩ :=
      ih (t := addEntity region origin fields loc name t (x, n))
      (Valid.add _ _ _ _ _ _ hv) (h.addEntity x)
    have hlen : n + 1 + xs.length = n + (x :: xs).length := by
      rw [List.length_cons]
      omega
    refine ⟨hv', hcont.trans hcont', hlen ▸ hholds, hunk, fun o ho => ?_⟩
    obtain hlt | ⟨k, hk, hok⟩ := horg o ho
    · obtain hold | hnew := origin_add hlt
      · exact .inl hold
      · exact .inr ⟨n, by omega, (hcont'.get_eq hlt).symm ▸ hnew⟩
    · exact .inr ⟨k, hlen ▸ hk, hok⟩

end entities

/-! ## projections stay in the table -/

variable {t t' : ObjectTable}

theorem Valid.baseOf_lt (h : t.Valid) {o : Nat} (ho : o < t.size) : t.baseOf o < t.size :=
  Nat.lt_of_le_of_lt (Nat.le_add_right _ _) (h ho rfl)

theorem Valid.project_lt (h : t.Valid) {o offset o' : Nat} (ho : o < t.size)
    (hp : t.project o offset = .ok o') : o' < t.size := by
  have hbase := h ho (b := (t.get o).base) rfl
  simp only [project] at hp
  split at hp
  · cases hp
    exact ho
  · split at hp
    · cases hp
    · split at hp
      · cases hp
        grind
      · cases hp
        exact h.baseOf_lt ho

theorem Valid.allFields_lt (h : t.Valid) {o o' : Nat} (ho : o < t.size)
    (hmem : o' ∈ t.allFields o) :
    o' < t.size := by
  have hbase := h ho rfl
  simp only [allFields, fieldsOf, List.mem_cons, List.mem_map, List.mem_range] at hmem
  obtain rfl | ⟨k, hk, rfl⟩ := hmem
  · exact h.baseOf_lt ho
  · grind

/-! ## marking arrays -/

/-- Two tables with the same objects in the same blocks. -/
structure SameBlocks (t t' : ObjectTable) : Prop where
  size_eq : t'.size = t.size
  region_eq : ∀ o, (t'.get o).region = (t.get o).region
  origin_eq : ∀ o, (t'.get o).origin = (t.get o).origin
  baseOf_eq : ∀ o, t'.baseOf o = t.baseOf o
  field_eq : ∀ o, (t'.get o).field = (t.get o).field
  fieldCount_eq : ∀ o, (t'.get o).fieldCount = (t.get o).fieldCount
  func_eq : ∀ o, (t'.get o).func = (t.get o).func

namespace SameBlocks

theorem refl (t : ObjectTable) : t.SameBlocks t :=
  ⟨rfl, fun _ => rfl, fun _ => rfl, fun _ => rfl, fun _ => rfl, fun _ => rfl, fun _ => rfl⟩

theorem trans {u : ObjectTable} (h : t.SameBlocks t') (h' : t'.SameBlocks u) :
    t.SameBlocks u where
  size_eq := h'.size_eq.trans h.size_eq
  region_eq o := (h'.region_eq o).trans (h.region_eq o)
  origin_eq o := (h'.origin_eq o).trans (h.origin_eq o)
  baseOf_eq o := (h'.baseOf_eq o).trans (h.baseOf_eq o)
  field_eq o := (h'.field_eq o).trans (h.field_eq o)
  fieldCount_eq o := (h'.fieldCount_eq o).trans (h.fieldCount_eq o)
  func_eq o := (h'.func_eq o).trans (h.func_eq o)

theorem allFields_eq (h : t.SameBlocks t') (o : ObjId) : t'.allFields o = t.allFields o := by
  rw [allFields, allFields, fieldsOf, fieldsOf, h.baseOf_eq, h.fieldCount_eq]

theorem project_eq (h : t.SameBlocks t') (o : ObjId) (offset : Nat) :
    t'.project o offset = t.project o offset := by
  have hbase : (t'.get o).base = (t.get o).base := h.baseOf_eq o
  have hunknown : (t'.get o).isUnknown = (t.get o).isUnknown := by
    simp only [MemObject.isUnknown, h.region_eq]
  have hfunction : (t'.get o).isFunction = (t.get o).isFunction := by
    simp only [MemObject.isFunction, h.region_eq]
  simp only [project, hunknown, hfunction, h.field_eq, hbase, h.fieldCount_eq]

/-- Marking an array touches nothing but its mark. -/
theorem markArray (t : ObjectTable) (o : ObjId) : t.SameBlocks (t.markArray o) := by
  have hget (q : ObjId) : (t.markArray o).get q = t.get q ∨
      (t.markArray o).get q = { t.get q with array := true } := by
    rw [ObjectTable.markArray, get, Table.getD_modify]
    split
    · exact .inr rfl
    · exact .inl rfl
  constructor
  case size_eq => exact Array.size_modify ..
  case baseOf_eq =>
    intro q
    rw [baseOf, baseOf]
    obtain h | h := hget q <;> rw [h]
  all_goals
    intro q
    obtain h | h := hget q <;> rw [h]

end SameBlocks

end ObjectTable

namespace PointsTo.Solver

open ObjectTable

variable (p : Program)

/-- Add the object of an allocation. -/
def addAlloc (os : IdMap ObjId × ObjectTable) (i : InstId) : IdMap ObjId × ObjectTable :=
  match p.op i with
  | .alloc heap fields =>
    let (o, t) := os.2.add (if heap then .heap else .stack) (.alloc i) fields (some (p.funcOf i))
      (p.inst i).loc ((if heap then "heap@" else "stack@") ++ handle "i" i)
    (os.1.insert i o, t)
  | _ => os

variable {p}

variable (p) in
/-- The table with an object for each allocation among the instructions. -/
structure Allocated (is : List InstId) (os r : IdMap ObjId × ObjectTable) : Prop where
  valid : r.2.Valid
  continues : os.2.Continues r.2
  unknown_eq : r.2.unknown? = os.2.unknown?
  lt : ∀ {i o : Nat}, r.1[i]? = some o → o < r.2.size
  keep : ∀ {i : Nat}, i ∈ os.1 → i ∈ r.1
  mem : ∀ {i : Nat} {heap fields}, i ∈ is → p.op i = .alloc heap fields → i ∈ r.1
  origin : ∀ o < r.2.size, o < os.2.size ∨ ∃ i, (r.2.get o).origin = .alloc i

theorem allocated_addAlloc (i : InstId) {os : IdMap ObjId × ObjectTable} (hv : os.2.Valid)
    (h : ∀ {i o : Nat}, os.1[i]? = some o → o < os.2.size) :
    Allocated p [i] os (addAlloc p os i) := by
  unfold addAlloc
  split
  · next heap fields hop =>
    have hsize := size_add os.2 (if heap then .heap else .stack) (.alloc i) fields
      (some (p.funcOf i)) (p.inst i).loc ((if heap then "heap@" else "stack@") ++ handle "i" i)
    constructor
    case valid => exact Valid.add _ _ _ _ _ _ hv
    case continues => exact continues_add ..
    case unknown_eq => rfl
    case lt =>
      intro j o ho
      rw [Std.TreeMap.getElem?_insert] at ho
      dsimp only
      rw [hsize]
      split at ho
      · cases ho
        exact Nat.lt_of_lt_of_le (Nat.lt_succ_self _) (Nat.le_add_right _ _)
      · have := h ho
        omega
    case keep => exact fun hj => Std.TreeMap.mem_insert.2 (.inr hj)
    case mem =>
      intro j _ _ hj _
      exact Std.TreeMap.mem_insert.2 (.inl (by simp [List.mem_singleton.1 hj]))
    case origin =>
      intro o ho
      exact (origin_add ho).imp_right fun horg => ⟨i, horg⟩
  · next hop =>
    refine ⟨hv, .refl _, rfl, h, id, fun hj halloc => ?_, fun o ho => .inl ho⟩
    exact absurd (List.mem_singleton.1 hj ▸ halloc) (hop _ _)

theorem Allocated.trans {is js : List InstId} {os os' r : IdMap ObjId × ObjectTable}
    (h : Allocated p is os os') (h' : Allocated p js os' r) : Allocated p (is ++ js) os r where
  valid := h'.valid
  continues := h.continues.trans h'.continues
  unknown_eq := h'.unknown_eq.trans h.unknown_eq
  lt := h'.lt
  keep hi := h'.keep (h.keep hi)
  mem hi hop := (List.mem_append.1 hi).elim (fun hi => h'.keep (h.mem hi hop)) fun hi =>
    h'.mem hi hop
  origin o ho := by
    obtain hlt | horg := h'.origin o ho
    · rw [h'.continues.get_eq hlt]
      exact h.origin o hlt
    · exact .inr horg

theorem allocated_foldl (is : List InstId) {os : IdMap ObjId × ObjectTable} (hv : os.2.Valid)
    (h : ∀ {i o : Nat}, os.1[i]? = some o → o < os.2.size) :
    Allocated p is os (is.foldl (addAlloc p) os) := by
  induction is generalizing os with
  | nil => exact ⟨hv, .refl _, rfl, h, id, nofun, fun o ho => .inl ho⟩
  | cons i is ih =>
    have hstep := allocated_addAlloc (p := p) i hv h
    exact hstep.trans (ih hstep.valid hstep.lt)

/-! ## the table of a program -/

variable (p)

/-- The objects of the globals. -/
def globalStage : Array ObjId × ObjectTable :=
  p.globals.toList.zipIdx.foldl
    (addEntity .global .global Global.fields Global.loc Global.name) (#[], {})

/-- The objects of the functions, after the globals. -/
def functionStage : Array ObjId × ObjectTable :=
  p.funcs.toList.zipIdx.foldl
    (addEntity .function .function (fun _ => 0) (fun _ => none) Function.name)
    (#[], (globalStage p).2)

/-- The objects of the allocations, after the functions. -/
def allocStage : IdMap ObjId × ObjectTable :=
  p.instIds.foldl (addAlloc p) (∅, (functionStage p).2)

theorem objects_eq : objects p =
    let u := (allocStage p).2.unknown
    { objs := u.2
      graph := .ofCounts p.values.size u.2.size
      pts := Array.replicate (p.values.size + u.2.size) ∅
      allocObjs := (allocStage p).1
      globalObjs := (globalStage p).1
      funcObjs := (functionStage p).1
      unknown := u.1 } := by
  rfl

variable {p}

theorem globalStage_spec : (globalStage p).2.Valid ∧
    Holds Origin.global (globalStage p) p.globals.size ∧ (globalStage p).2.unknown? = none ∧
    ∀ o < (globalStage p).2.size, ∃ g, ((globalStage p).2.get o).origin = .global g := by
  obtain ⟨hv, -, hholds, hunk, horg⟩ := foldl_addEntity .global .global Global.fields
    Global.loc Global.name p.globals.toList (t := (#[], {})) (n := 0)
    (fun ho => absurd ho (Nat.not_lt_zero _)) ⟨rfl, by simp⟩
  rw [Nat.zero_add, Array.length_toList] at hholds
  refine ⟨hv, hholds, hunk, fun o ho => ?_⟩
  obtain hlt | ⟨g, -, hg⟩ := horg o ho
  · exact absurd hlt (Nat.not_lt_zero _)
  · exact ⟨g, hg⟩

theorem functionStage_spec : (functionStage p).2.Valid ∧
    (globalStage p).2.Continues (functionStage p).2 ∧
    Holds Origin.function (functionStage p) p.funcs.size ∧ (functionStage p).2.unknown? = none ∧
    ∀ o < (functionStage p).2.size, ∀ f, ((functionStage p).2.get o).origin = .function f →
      f < p.funcs.size := by
  obtain ⟨hgv, -, hgunk, hgorg⟩ := globalStage_spec (p := p)
  obtain ⟨hv, hcont, hholds, hunk, horg⟩ := foldl_addEntity .function .function (fun _ => 0)
    (fun _ => none) Function.name p.funcs.toList (t := (#[], (globalStage p).2)) (n := 0) hgv
    ⟨rfl, by simp⟩
  rw [Nat.zero_add, Array.length_toList] at hholds horg
  refine ⟨hv, hcont, hholds, hunk.trans hgunk, fun o ho f hf => ?_⟩
  have hget (hlt : o < (globalStage p).2.size) :
      (functionStage p).2.get o = (globalStage p).2.get o := hcont.get_eq hlt
  obtain hlt | ⟨k, hk, hok⟩ := horg o ho
  · obtain ⟨g, hg⟩ := hgorg o hlt
    rw [hget hlt, hg] at hf
    cases hf
  · rw [show ((functionStage p).2.get o).origin = .function k from hok] at hf
    cases hf
    exact hk

theorem allocStage_spec :
    Allocated p p.instIds (∅, (functionStage p).2) (allocStage p) :=
  allocated_foldl _ functionStage_spec.1 (by simp)

theorem unknown_allocStage : (allocStage p).2.unknown? = none :=
  allocStage_spec.unknown_eq.trans functionStage_spec.2.2.2.1

/-- Unknown memory comes last. -/
theorem objs_objects : (objects p).objs = { (allocStage p).2.add .unknown .unknown 0 none none
    "<unknown>" |>.2 with unknown? := some (allocStage p).2.size } := by
  rw [objects_eq]
  simp only [ObjectTable.unknown, unknown_allocStage]
  rfl

theorem continues_objects : (allocStage p).2.Continues (objects p).objs := by
  have h := continues_add (allocStage p).2 .unknown .unknown 0 none none "<unknown>"
  rw [objs_objects]
  exact ⟨h.size_le, h.get_eq⟩

theorem size_objects : (objects p).objs.size = (allocStage p).2.size + 1 := by
  rw [objs_objects]
  exact size_add ..

theorem unknown_lt : (objects p).unknown < (objects p).objs.size := by
  have h : (objects p).unknown = (allocStage p).2.size := by
    rw [objects_eq]
    simp only [ObjectTable.unknown, unknown_allocStage]
    rfl
  rw [h, size_objects]
  exact Nat.lt_succ_self _

theorem objects_valid : (objects p).objs.Valid := by
  rw [objs_objects]
  exact Valid.add _ _ _ _ _ _ allocStage_spec.valid

theorem continues_functionStage : (functionStage p).2.Continues (objects p).objs :=
  allocStage_spec.continues.trans continues_objects

theorem globalObj_lt {g : Nat} (hg : g < p.globals.size) :
    (objects p).globalObj g < (objects p).objs.size :=
  Nat.lt_of_lt_of_le (globalStage_spec.2.1.2 g hg).1
    (functionStage_spec.2.1.trans continues_functionStage).size_le

theorem funcObj_lt {f : Nat} (hf : f < p.funcs.size) :
    (objects p).funcObj f < (objects p).objs.size :=
  Nat.lt_of_lt_of_le (functionStage_spec.2.2.1.2 f hf).1 continues_functionStage.size_le

theorem origin_funcObj {f : Nat} (hf : f < p.funcs.size) :
    ((objects p).obj ((objects p).funcObj f)).origin = .function f := by
  obtain ⟨hlt, horg⟩ := functionStage_spec.2.2.1.2 f hf
  exact (congrArg MemObject.origin (continues_functionStage.get_eq hlt)).trans horg

/-- Only functions of the program have objects of their own. -/
theorem lt_of_origin {o f : Nat} (h : ((objects p).obj o).origin = .function f) :
    f < p.funcs.size := by
  have hlt : o < (objects p).objs.size := by
    by_contra hle
    rw [obj, ObjectTable.get, Table.getD_of_size_le (Nat.le_of_not_lt hle)] at h
    cases h
  rw [size_objects] at hlt
  by_cases hold : o < (allocStage p).2.size
  · rw [obj, continues_objects.get_eq hold] at h
    obtain hfun | ⟨i, hi⟩ := allocStage_spec.origin o hold
    · rw [allocStage_spec.continues.get_eq hfun] at h
      exact functionStage_spec.2.2.2.2 o hfun f h
    · rw [hi] at h
      cases h
  · have hnew := get_add (allocStage p).2 .unknown .unknown 0 none none "<unknown>"
      (Nat.le_of_not_lt hold) hlt
    rw [obj, objs_objects] at h
    cases hnew.2.1.symm.trans h

theorem allocObj_lt {i o : Nat} (h : (objects p).allocObj i = some o) :
    o < (objects p).objs.size :=
  Nat.lt_of_lt_of_le (allocStage_spec.lt h) continues_objects.size_le

theorem exists_allocObj {i : Nat} {heap : Bool} {fields : Nat} (hi : i < p.insts.size)
    (hop : p.op i = .alloc heap fields) : ∃ o, (objects p).allocObj i = some o := by
  have hmem := allocStage_spec.mem (List.mem_range.2 hi) hop
  exact ⟨_, Std.TreeMap.getElem?_eq_some_getElem hmem⟩

end PointsTo.Solver

end DataRace
