import DataRace.Proofs.PointsTo.Objects

/-!
# DataRace.Proofs.PointsTo.Layout

How the objects of a program lie in their blocks.

A block is a base followed by its fields in order, and every object lies in the
block of its base (`Laid`).  Only bases have their address taken (`IsRoot`): the
objects of globals, of functions and of allocations are bases, and unknown
memory is none of them.
-/

namespace DataRace

namespace ObjectTable

/-! ## blocks -/

/-- An object without an inside: a function or unknown memory. -/
def IsPlain (t : ObjectTable) (o : ObjId) : Prop :=
  (t.get o).region = .unknown ∨ (t.get o).region = .function

/-- An object lies in the block of its base, and is a block of its own if it is plain. -/
structure LaidAt (t : ObjectTable) (o : ObjId) : Prop where
  base : t.baseOf (t.baseOf o) = t.baseOf o ∧ (t.get (t.baseOf o)).field = none
  field : ∀ {k : Nat}, k < (t.get (t.baseOf o)).fieldCount →
    t.baseOf (t.baseOf o + 1 + k) = t.baseOf o ∧ (t.get (t.baseOf o + 1 + k)).field = some k
  inside : ∀ {k : Nat}, (t.get o).field = some k → k < (t.get (t.baseOf o)).fieldCount
  offset : ∀ {k : Nat}, (t.get o).field = some k → o = t.baseOf o + 1 + k
  plain : t.IsPlain o → t.baseOf o = o ∧ (t.get o).fieldCount = 0
  root : (t.get o).field = none → t.baseOf o = o

/-- Every object lies in the block of its base. -/
def Laid (t : ObjectTable) : Prop := ∀ o < t.size, t.LaidAt o

/-- An object whose address is taken: the base of a block of known memory. -/
structure IsRoot (t : ObjectTable) (o : ObjId) : Prop where
  lt : o < t.size
  base : t.baseOf o = o
  field : (t.get o).field = none
  known : (t.get o).isUnknown = false

variable {t t' : ObjectTable}

theorem IsRoot.continues {o : Nat} (h : IsRoot t o) (hcont : t.Continues t') : IsRoot t' o where
  lt := Nat.lt_of_lt_of_le h.lt hcont.size_le
  base := by rw [baseOf, hcont.get_eq h.lt, ← baseOf, h.base]
  field := by rw [hcont.get_eq h.lt, h.field]
  known := by rw [hcont.get_eq h.lt, h.known]

variable {o x k : Nat}

/-- An object without an inside is a block of its own. -/
theorem LaidAt.eq_of_isPlain (hx : t.LaidAt x) (ho : t.LaidAt o) (hbase : t.baseOf x = t.baseOf o)
    (hplain : t.IsPlain o) : x = o := by
  obtain ⟨hself, hcount⟩ := ho.plain hplain
  have hnone : (t.get x).field = none := by
    cases hfield : (t.get x).field with
    | none => rfl
    | some k =>
      have hinside := hx.inside hfield
      rw [hbase, hself, hcount] at hinside
      exact absurd hinside (Nat.not_lt_zero k)
  rw [← hx.root hnone, hbase, hself]

/-- Unknown memory is a block of its own. -/
theorem LaidAt.known_of_baseOf_eq (hx : t.LaidAt x) (ho : t.LaidAt o)
    (hbase : t.baseOf x = t.baseOf o) (hknown : (t.get x).isUnknown = false) :
    (t.get o).isUnknown = false := by
  by_contra hunknown
  rw [Bool.not_eq_false] at hunknown
  have heq := hx.eq_of_isPlain ho hbase (.inl (of_decide_eq_true hunknown))
  rw [heq, hunknown] at hknown
  cases hknown

/-! ## projections -/

theorem LaidAt.allFields_of_isPlain (h : t.LaidAt o) (hplain : t.IsPlain o) :
    t.allFields o = [o] := by
  obtain ⟨hbase, hcount⟩ := h.plain hplain
  rw [allFields, fieldsOf, hbase, hcount]
  rfl

theorem LaidAt.mem_allFields (h : t.LaidAt o) (hx : x ∈ t.allFields o) :
    t.baseOf x = t.baseOf o ∧ (x = t.baseOf o ∨ ∃ k, (t.get x).field = some k) := by
  rcases List.mem_cons.1 hx with rfl | hx
  · exact ⟨h.base.1, .inl rfl⟩
  · obtain ⟨k, hk, rfl⟩ := List.mem_map.1 hx
    obtain ⟨hbase, hfield⟩ := h.field (List.mem_range.1 hk)
    exact ⟨hbase, .inr ⟨k, hfield⟩⟩

/-- The objects of a block are its base and the fields of its base. -/
theorem LaidAt.mem_allFields_of_baseOf_eq (hx : t.LaidAt x) (hbase : t.baseOf x = t.baseOf o) :
    x ∈ t.allFields o := by
  cases hfield : (t.get x).field with
  | none => exact List.mem_cons.2 (.inl (hbase ▸ (hx.root hfield).symm))
  | some k =>
    refine List.mem_cons_of_mem _ (List.mem_map.2 ⟨k, ?_, ?_⟩)
    · exact List.mem_range.2 (hbase ▸ hx.inside hfield)
    · rw [hx.offset hfield, hbase]

/-- A projection stays in the block: it leads to a field inside it, or else to its base. -/
theorem LaidAt.project (h : t.LaidAt o) (hx : t.project o k = .ok x) : t.baseOf x = t.baseOf o ∧
    ((t.get o).field.getD 0 + k < (t.get (t.baseOf o)).fieldCount ∧
        (t.get x).field = some ((t.get o).field.getD 0 + k) ∨
      (t.get (t.baseOf o)).fieldCount ≤ (t.get o).field.getD 0 + k ∧ x = t.baseOf o) := by
  unfold ObjectTable.project at hx
  simp only at hx
  split at hx
  · next hplain =>
    cases hx
    have hregion : t.IsPlain o := by
      simpa [IsPlain, MemObject.isUnknown, MemObject.isFunction] using hplain
    obtain ⟨hbase, hcount⟩ := h.plain hregion
    rw [hbase, hcount]
    exact ⟨rfl, .inr ⟨Nat.zero_le _, rfl⟩⟩
  · split at hx
    · cases hx
    · split at hx
      · next hlt =>
        cases hx
        obtain ⟨hbase, hfield⟩ := h.field hlt
        exact ⟨hbase, .inl ⟨hlt, hfield⟩⟩
      · next hge =>
        cases hx
        exact ⟨h.base.1, .inr ⟨Nat.le_of_not_lt hge, rfl⟩⟩

/-- A projection stays in its aggregate. -/
theorem LaidAt.mem_allFields_of_project (h : t.LaidAt o) (hx : t.project o k = .ok x) :
    x ∈ t.allFields o := by
  unfold ObjectTable.project at hx
  simp only at hx
  split at hx
  · next hplain =>
    cases hx
    exact h.mem_allFields_of_baseOf_eq rfl
  · split at hx
    · cases hx
    · split at hx
      · next hlt =>
        cases hx
        exact List.mem_cons_of_mem _ (List.mem_map.2 ⟨_, List.mem_range.2 hlt, rfl⟩)
      · cases hx
        exact List.mem_cons_self

/-- A projection of a field by nothing stays there. -/
theorem LaidAt.eq_of_project_zero {j : Nat} (h : t.LaidAt o) (hfield : (t.get o).field = some j)
    (hx : t.project o 0 = .ok x) : x = o := by
  have hinside : j < (t.get (t.get o).base).fieldCount := h.inside hfield
  unfold ObjectTable.project at hx
  simp only [hfield, Option.getD_some, Nat.add_zero, hinside, if_true] at hx
  split at hx
  · cases hx
    rfl
  · split at hx
    · cases hx
    · cases hx
      exact (h.offset hfield).symm

/-- A projection by nothing is in range where the field is. -/
theorem exists_project_zero {o : Nat} (h : (t.get o).field.getD 0 < UInt32.size) :
    ∃ x, t.project o 0 = .ok x := by
  unfold ObjectTable.project
  simp only [Nat.add_zero, Nat.not_le.2 h, if_false]
  split
  · exact ⟨_, rfl⟩
  · split <;> exact ⟨_, rfl⟩

/-! ## adding a block -/

/-- Adding to a table leaves its blocks as they are. -/
theorem LaidAt.continues (hv : t.Valid) (ho : o < t.size) (h : t.LaidAt o)
    (hcont : t.Continues t') : t'.LaidAt o := by
  have hroot := hv.baseOf_lt ho
  have hend := hv ho rfl
  have hbase {y : Nat} (hy : y < t.size) : t'.baseOf y = t.baseOf y := by
    rw [baseOf, hcont.get_eq hy, ← baseOf]
  constructor
  all_goals simp only [IsPlain, hbase ho, hbase hroot, hcont.get_eq ho, hcont.get_eq hroot]
  case base => exact h.base
  case field =>
    intro k hk
    rw [hbase (by omega), hcont.get_eq (by omega)]
    exact h.field hk
  case inside => exact h.inside
  case offset => exact h.offset
  case plain => exact h.plain
  case root => exact h.root

section add

variable (t) (region : Region) (origin : Origin) (fields : Nat) (func : Option FuncId)
  (loc : Option Location) (name : String)

/-- The base of an added block. -/
theorem get_add_base : (t.add region origin fields func loc name).2.get t.size =
    { region, origin, base := t.size, fieldCount := fields, func, loc, name } := by
  simp only [add, get, size, List.foldl_push_eq_append, Array.getD_eq_getD_getElem?]
  rw [Array.getElem?_append_left (by rw [Array.size_push]; omega), Array.getElem?_push,
    if_pos rfl]
  rfl

/-- The fields of an added block. -/
theorem get_add_field {k : Nat} (hk : k < fields) :
    let obj := (t.add region origin fields func loc name).2.get (t.size + 1 + k)
    obj.base = t.size ∧ obj.field = some k ∧ obj.region = region := by
  simp only [add, get, size, List.foldl_push_eq_append, Array.getD_eq_getD_getElem?]
  rw [Array.getElem?_append_right (by rw [Array.size_push]; omega), Array.size_push,
    Nat.add_sub_cancel_left, List.getElem?_toArray, List.getElem?_map, List.getElem?_range hk]
  exact ⟨rfl, rfl, rfl⟩

variable {t region fields}

theorem isRoot_add (hregion : region ≠ .unknown) :
    IsRoot (t.add region origin fields func loc name).2 t.size where
  lt := by
    rw [size_add]
    exact Nat.lt_add_right _ (Nat.lt_succ_self _)
  base := by rw [baseOf, get_add_base]
  field := by rw [get_add_base]
  known := by rw [get_add_base, MemObject.isUnknown, decide_eq_false hregion]

/-- The objects of an added block lie in it. -/
theorem laidAt_add {o : Nat} (hplain : region = .unknown ∨ region = .function → fields = 0)
    (hlo : t.size ≤ o) (hhi : o < (t.add region origin fields func loc name).2.size) :
    (t.add region origin fields func loc name).2.LaidAt o := by
  have hbase := get_add_base t region origin fields func loc name
  have hfield {k : Nat} (hk : k < fields) := get_add_field t region origin fields func loc name hk
  rw [size_add] at hhi
  generalize (t.add region origin fields func loc name).2 = u at *
  have hself : u.baseOf t.size = t.size := by rw [baseOf, hbase]
  obtain rfl | ⟨k, hk, rfl⟩ : o = t.size ∨ ∃ k < fields, o = t.size + 1 + k := by
    by_cases heq : o = t.size
    · exact .inl heq
    · exact .inr ⟨o - (t.size + 1), by omega, by omega⟩
  · constructor
    case root => exact fun _ => hself
    all_goals simp only [IsPlain, hself, hbase]
    case base => exact ⟨trivial, trivial⟩
    case field => exact fun hk => ⟨(hfield hk).1, (hfield hk).2.1⟩
    case inside =>
      intro j hj
      cases hj
    case offset =>
      intro j hj
      cases hj
    case plain => exact fun hregion => ⟨trivial, hplain hregion⟩
  · obtain ⟨hroot, hsome, hregion⟩ := hfield hk
    have hroot : u.baseOf (t.size + 1 + k) = t.size := hroot
    constructor
    all_goals simp only [IsPlain, hroot, hself, hbase, hsome, hregion]
    case base => exact ⟨trivial, trivial⟩
    case field => exact fun hk => ⟨(hfield hk).1, (hfield hk).2.1⟩
    case inside =>
      intro j hj
      cases hj
      exact hk
    case offset =>
      intro j hj
      cases hj
      rfl
    case plain =>
      intro hregion
      have hnone := hplain hregion
      omega
    case root =>
      intro hnone
      cases hnone

theorem Laid.add (hv : t.Valid) (h : t.Laid)
    (hplain : region = .unknown ∨ region = .function → fields = 0) :
    (t.add region origin fields func loc name).2.Laid := by
  intro o ho
  by_cases hlt : o < t.size
  · exact (h o hlt).continues hv hlt (continues_add ..)
  · exact laidAt_add _ _ _ _ hplain (Nat.le_of_not_lt hlt) ho

end add

/-! ## the same blocks -/

theorem SameBlocks.isUnknown_eq (h : t.SameBlocks t') (o : ObjId) :
    (t'.get o).isUnknown = (t.get o).isUnknown := by
  rw [MemObject.isUnknown, MemObject.isUnknown, h.region_eq]

theorem SameBlocks.laid (h : t.SameBlocks t') (hlaid : t.Laid) : t'.Laid := by
  intro o ho
  have hold := hlaid o (h.size_eq ▸ ho)
  constructor
  all_goals simp only [IsPlain, h.baseOf_eq, h.field_eq, h.fieldCount_eq, h.region_eq]
  · exact hold.base
  · exact hold.field
  · exact hold.inside
  · exact hold.offset
  · exact hold.plain
  · exact hold.root

theorem SameBlocks.isRoot (h : t.SameBlocks t') {o : Nat} (ho : t.IsRoot o) : t'.IsRoot o where
  lt := h.size_eq ▸ ho.lt
  base := by rw [h.baseOf_eq, ho.base]
  field := by rw [h.field_eq, ho.field]
  known := by rw [h.isUnknown_eq, ho.known]

/-! ## adding one object for each entity -/

theorem foldl_addEntity_laid {α : Type} {region : Region} {origin : Nat → Origin}
    {fields : α → Nat} {loc : α → Option Location} {name : α → String}
    (hregion : region ≠ .unknown) (hplain : region = .function → ∀ a, fields a = 0)
    (xs : List (α × Nat)) {w : Array ObjId × ObjectTable}
    (hv : w.2.Valid) (hlaid : w.2.Laid) (hroots : ∀ k < w.1.size, IsRoot w.2 (w.1.getD k 0)) :
    let r := xs.foldl (addEntity region origin fields loc name) w
    r.2.Valid ∧ r.2.Laid ∧ ∀ k < r.1.size, IsRoot r.2 (r.1.getD k 0) := by
  induction xs generalizing w with
  | nil => exact ⟨hv, hlaid, hroots⟩
  | cons x xs ih =>
    have hfields (h : region = .unknown ∨ region = .function) : fields x.1 = 0 :=
      hplain (h.resolve_left hregion) x.1
    refine ih (Valid.add _ _ _ _ _ _ hv) (hlaid.add _ _ _ _ hv hfields) fun k hk => ?_
    simp only [addEntity, Array.size_push, Array.getD_eq_getD_getElem?, Array.getElem?_push] at hk ⊢
    split
    · exact isRoot_add _ _ _ _ hregion
    · have hroot := hroots k (by omega)
      rw [Array.getD_eq_getD_getElem?] at hroot
      exact hroot.continues (continues_add ..)

end ObjectTable

namespace PointsTo.Solver

open ObjectTable

variable {p : Program}

theorem foldl_addAlloc_laid (is : List InstId) {os : IdMap ObjId × ObjectTable} (hv : os.2.Valid)
    (hlaid : os.2.Laid) (hroots : ∀ {i o : Nat}, os.1[i]? = some o → IsRoot os.2 o) :
    (is.foldl (addAlloc p) os).2.Laid ∧
      ∀ {i o : Nat}, (is.foldl (addAlloc p) os).1[i]? = some o →
        IsRoot (is.foldl (addAlloc p) os).2 o := by
  induction is generalizing os with
  | nil => exact ⟨hlaid, hroots⟩
  | cons i is ih =>
    rw [List.foldl_cons]
    unfold addAlloc
    split
    · next heap fields hop =>
      have hregion : (if heap then Region.heap else .stack) ≠ .unknown ∧
          (if heap then Region.heap else .stack) ≠ .function := by
        cases heap <;> decide
      refine ih (Valid.add _ _ _ _ _ _ hv)
        (hlaid.add _ _ _ _ hv fun h => (h.elim hregion.1 hregion.2).elim) fun {j o} ho => ?_
      rw [Std.TreeMap.getElem?_insert] at ho
      split at ho
      · cases ho
        exact isRoot_add _ _ _ _ hregion.1
      · exact (hroots ho).continues (continues_add ..)
    · exact ih hv hlaid hroots

/-! ## the table of a program -/

theorem globalStage_laid : (globalStage p).2.Laid ∧
    ∀ k < (globalStage p).1.size, IsRoot (globalStage p).2 ((globalStage p).1.getD k 0) :=
  (foldl_addEntity_laid (w := (#[], {})) (by decide) (fun h => by cases h) _
    (fun ho => absurd ho (Nat.not_lt_zero _))
    (fun _ ho => absurd ho (Nat.not_lt_zero _)) fun _ hk => absurd hk (Nat.not_lt_zero _)).2

theorem functionStage_laid : (functionStage p).2.Laid ∧
    ∀ k < (functionStage p).1.size, IsRoot (functionStage p).2 ((functionStage p).1.getD k 0) :=
  (foldl_addEntity_laid (w := (#[], (globalStage p).2)) (by decide)
    (fun _ _ => rfl) _ globalStage_spec.1
    globalStage_laid.1 fun _ hk => absurd hk (Nat.not_lt_zero _)).2

theorem allocStage_laid : (allocStage p).2.Laid ∧
    ∀ {i o : Nat}, (allocStage p).1[i]? = some o → IsRoot (allocStage p).2 o :=
  foldl_addAlloc_laid _ functionStage_spec.1 functionStage_laid.1 (by simp)

/-- The objects of a program lie in their blocks. -/
theorem objects_laid : (objects p).objs.Laid := by
  have h : ((allocStage p).2.add .unknown .unknown 0 none none "<unknown>").2.Laid :=
    allocStage_laid.1.add _ _ _ _ allocStage_spec.valid fun _ => rfl
  rw [objs_objects]
  exact fun o ho =>
    ⟨(h o ho).base, (h o ho).field, (h o ho).inside, (h o ho).offset, (h o ho).plain, (h o ho).root⟩

theorem isUnknown_unknown : ((objects p).objs.get (objects p).unknown).isUnknown = true := by
  have hlast : (objects p).unknown = (allocStage p).2.size := by
    rw [objects_eq]
    simp only [ObjectTable.unknown, unknown_allocStage]
    rfl
  rw [hlast, objs_objects]
  exact congrArg MemObject.isUnknown (get_add_base ..)

theorem isRoot_globalObj {g : Nat} (hg : g < p.globals.size) :
    (objects p).objs.IsRoot ((objects p).globalObj g) :=
  (globalStage_laid.2 g (globalStage_spec.2.1.1 ▸ hg)).continues
    (functionStage_spec.2.1.trans continues_functionStage)

theorem isRoot_funcObj {f : Nat} (hf : f < p.funcs.size) :
    (objects p).objs.IsRoot ((objects p).funcObj f) :=
  (functionStage_laid.2 f (functionStage_spec.2.2.1.1 ▸ hf)).continues continues_functionStage

theorem isRoot_allocObj {i o : Nat} (h : (objects p).allocObj i = some o) :
    (objects p).objs.IsRoot o :=
  (allocStage_laid.2 h).continues continues_objects

end PointsTo.Solver

end DataRace
