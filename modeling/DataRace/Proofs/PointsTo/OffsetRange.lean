import DataRace.Proofs.PointsTo.Edges
import DataRace.Proofs.Success

/-!
# DataRace.Proofs.PointsTo.OffsetRange

Projections within a 32-bit word.

An object is projected by the offsets of the program only, and it stands at the
start of an aggregate or at one of its fields.  So when every offset fits into
a word from the last field of every aggregate, no projection leaves the word:

* `PointsTo.exists_project_of_mem_offsets` — projecting an object succeeds;
* `PointsTo.succeeds_analyze` — so does the points-to analysis.
-/

namespace DataRace

namespace Program

/-- The field counts of the aggregates: of globals and of allocations. -/
def fieldCounts (p : Program) : List Nat :=
  p.globals.toList.map (·.fields) ++ p.instIds.filterMap fun i =>
    match p.op i with
    | .alloc _ fields => some fields
    | _ => none

/-- The constants that pointers are projected by. -/
def offsets (p : Program) : List Nat :=
  p.instIds.filterMap fun i =>
    match p.op i with
    | .project _ offset _ => offset
    | _ => none

/-- Every offset stays in a 32-bit word from the last field of every aggregate; an object without
fields is at the start. -/
def OffsetsFit (p : Program) : Prop :=
  ∀ k ∈ p.offsets, ∀ n ∈ 1 :: p.fieldCounts, k + n ≤ UInt32.size

instance (p : Program) : Decidable p.OffsetsFit :=
  inferInstanceAs (Decidable (∀ k ∈ p.offsets, ∀ n ∈ 1 :: p.fieldCounts, k + n ≤ UInt32.size))

theorem mem_offsets {p : Program} {i base k : Nat} {idx : Option ValueId}
    (h : p.op i = .project base (some k) idx) : k ∈ p.offsets :=
  List.mem_filterMap.2 ⟨i, List.mem_range.2 (lt_of_op_ne (by simp [h])), by rw [h]⟩

end Program

namespace ObjectTable

/-- The fields of a table are those of aggregates with one of some field counts. -/
def FieldsAmong (counts : List Nat) (t : ObjectTable) : Prop :=
  ∀ o k : Nat, (t.get o).field = some k → ∃ n ∈ counts, k < n

variable {counts : List Nat} {t t' : ObjectTable}

theorem fieldsAmong_empty (counts : List Nat) : FieldsAmong counts {} := nofun

theorem FieldsAmong.add {region : Region} {origin : Origin} {fields : Nat} {func : Option FuncId}
    {loc : Option Location} {name : String} (h : FieldsAmong counts t)
    (hfields : fields = 0 ∨ fields ∈ counts) :
    FieldsAmong counts (t.add region origin fields func loc name).2 := by
  intro o k hk
  have hsize := size_add t region origin fields func loc name
  by_cases hold : o < t.size
  · rw [(continues_add t region origin fields func loc name).get_eq hold] at hk
    exact h o k hk
  · by_cases hnew : o < t.size + 1 + fields
    · obtain rfl | ⟨j, hj, rfl⟩ : o = t.size ∨ ∃ j < fields, o = t.size + 1 + j := by
        by_cases heq : o = t.size
        · exact .inl heq
        · exact .inr ⟨o - (t.size + 1), by omega, by omega⟩
      · rw [get_add_base] at hk
        cases hk
      · rw [(get_add_field t region origin fields func loc name hj).2.1] at hk
        cases hk
        exact ⟨fields, hfields.resolve_left (by omega), hj⟩
    · rw [get, Table.getD_of_size_le (by rw [← size, hsize]; omega)] at hk
      cases hk

/-- A projection succeeds if it stays in a word from where the object stands. -/
theorem exists_project {o k : Nat} (h : (t.get o).field.getD 0 + k < UInt32.size) :
    ∃ x, t.project o k = .ok x := by
  unfold project
  dsimp only
  rw [if_neg (Nat.not_le.2 h)]
  split
  · exact ⟨_, rfl⟩
  · split <;> exact ⟨_, rfl⟩

end ObjectTable

namespace PointsTo

namespace Solver

open ObjectTable

variable {p : Program}

theorem fieldsAmong_globalStage : FieldsAmong p.fieldCounts (globalStage p).2 := by
  refine List.foldlRecOn
    (motive := fun w : Array ObjId × ObjectTable => FieldsAmong p.fieldCounts w.2)
    p.globals.toList.zipIdx _ (fieldsAmong_empty _) fun w hw x hx => ?_
  exact hw.add (.inr (List.mem_append_left _ (List.mem_map_of_mem (List.fst_mem_of_mem_zipIdx hx))))

theorem fieldsAmong_functionStage : FieldsAmong p.fieldCounts (functionStage p).2 :=
  List.foldlRecOn (motive := fun w : Array ObjId × ObjectTable => FieldsAmong p.fieldCounts w.2)
    p.funcs.toList.zipIdx _ fieldsAmong_globalStage fun _ hw _ _ => hw.add (.inl rfl)

theorem fieldsAmong_allocStage : FieldsAmong p.fieldCounts (allocStage p).2 := by
  refine List.foldlRecOn
    (motive := fun w : IdMap ObjId × ObjectTable => FieldsAmong p.fieldCounts w.2)
    p.instIds _ fieldsAmong_functionStage fun w hw i hi => ?_
  unfold addAlloc
  split
  · next heap fields hop =>
    exact hw.add (.inr (List.mem_append_right _ (List.mem_filterMap.2 ⟨i, hi, by rw [hop]⟩)))
  · exact hw

/-- The fields of the objects of a program are those of its aggregates. -/
theorem fieldsAmong_objects : FieldsAmong p.fieldCounts (objects p).objs := by
  have h : FieldsAmong p.fieldCounts
      ((allocStage p).2.add .unknown .unknown 0 none none "<unknown>").2 :=
    fieldsAmong_allocStage.add (.inl rfl)
  rw [objs_objects]
  exact h

/-- Projecting an object by an offset of the program succeeds. -/
theorem exists_project_objects (hfit : p.OffsetsFit) {k : Nat} (hk : k ∈ p.offsets) (o : Nat) :
    ∃ x, (objects p).objs.project o k = .ok x := by
  refine exists_project ?_
  cases hfield : ((objects p).objs.get o).field with
  | none =>
    have hle := hfit k hk 1 List.mem_cons_self
    rw [Option.getD_none]
    omega
  | some j =>
    obtain ⟨n, hn, hlt⟩ := fieldsAmong_objects o j hfield
    have hle := hfit k hk n (List.mem_cons_of_mem _ hn)
    rw [Option.getD_some]
    omega

/-! ## the solver -/

variable {variableIndex : Bool} {A : Assignment} {s : Solver}

/-- An edge that projects by a constant comes from the program. -/
theorem Inv.mem_offsets (h : Inv p variableIndex A s) {e : Edge} {k : Nat}
    (he : e ∈ s.result.graph.edges) (hk : e.kind = .field k) : k ∈ p.offsets := by
  have hjust := h.edge he
  rw [Justified, hk] at hjust
  obtain ⟨⟨i, idx, hop⟩, -⟩ := hjust
  exact Program.mem_offsets hop

section

variable (hfit : p.OffsetsFit)

include hfit

theorem succeeds_projectVia (h : Inv p variableIndex A s) {e : Edge}
    (he : e ∈ s.result.graph.edges) (o : Nat) :
    Succeeds (fun _ => True) (projectVia (env p variableIndex) s o e.kind) := by
  unfold projectVia
  split
  · next k hk =>
    obtain ⟨x, hx⟩ := exists_project_objects hfit (h.mem_offsets he hk) o
    rw [h.objs.project_eq, hx]
    exact .ok trivial
  · split <;> exact .ok trivial
  · exact .ok trivial

theorem succeeds_projectAll {n o : Nat} (ho : o ∈ A.node p n) {l : List Edge}
    (h : Inv p variableIndex A s) (hl : ∀ e ∈ l, e ∈ s.result.graph.edges ∧ e.src = n) :
    Succeeds (fun _ => True) (projectAll (env p variableIndex) o l s) := by
  induction l generalizing s with
  | nil => exact .ok trivial
  | cons e l ih =>
    obtain ⟨⟨os, t⟩, hvia, -⟩ := succeeds_projectVia hfit h (hl e List.mem_cons_self).1 o
    -- following one edge alone tells what it leaves for the others
    have hone : projectAll (env p variableIndex) o [e] s =
        .ok (os.foldl (fun s x => s.grow e.dst [x]) t) := by
      simp only [projectAll, hvia]
      rfl
    obtain ⟨hadv, -⟩ := projectAll_spec ho h
      (fun e' he' => hl e' (List.mem_cons.2 (.inl (List.mem_singleton.1 he')))) hone
    rw [projectAll, hvia]
    exact ih hadv.inv fun e' he' =>
      (hl e' (List.mem_cons_of_mem e he')).imp_left hadv.grows.edges

variable (hp : p.WellFormed) (hA : A.Closed p variableIndex) (hb : A.Bounded p)

include hp hA hb

theorem succeeds_stepObject (h : Ready p variableIndex A s) {n o : Nat} (ho : o ∈ A.node p n) :
    Succeeds (Ready p variableIndex A) (stepObject (env p variableIndex) n s o) := by
  have hg := h.inv.graph
  have hnode : s.result.graph.objNode o = p.values.size + o := by
    rw [AssignGraph.objNode, hg.valueCount]
  have hout {e : Edge} (he : e ∈ s.result.graph.outEdges n) := hg.mem_outEdges.1 he
  have hin {e : Edge} (he : e ∈ s.result.graph.inEdges n) := hg.mem_inEdges.1 he
  obtain ⟨hloads, -⟩ := stepLoads_spec hb ho (l := s.result.graph.outEdges n)
    (fun e he => ⟨h.inv.edge (hout he).1, (hout he).2, (hg.lt (hout he).1).2⟩) h.inv
  obtain ⟨hstores, -⟩ := stepStores_spec hb ho (l := s.result.graph.inEdges n)
    (fun e he => ⟨h.inv.edge (hin he).1, (hin he).2, (hg.lt (hin he).1).1⟩) hloads.inv
  have hcopies := hloads.trans hstores
  obtain ⟨s', hs', -⟩ : Succeeds (fun _ => True) (stepObject (env p variableIndex) n s o) := by
    simp only [stepObject, hnode]
    refine (succeeds_projectAll hfit ho hcopies.inv (l := s.result.graph.outEdges n)
      fun e he => ⟨hcopies.grows.edges (hout he).1, (hout he).2⟩).bind fun t _ => ?_
    split <;> exact .ok trivial
  obtain ⟨hadv, -⟩ := stepObject_spec hp hA hb h ho hs'
  exact ⟨s', hs', h.extend hadv.inv hadv.grows.toExtends hadv.debt_le⟩

theorem succeeds_step (h : Ready p variableIndex A s) (n : Nat) :
    Succeeds (Ready p variableIndex A) (step (env p variableIndex) s n) := by
  have hset {o : Nat} (ho : o ∈ (s.result.nodePts n).toList) : o ∈ A.node p n :=
    h.inv.pts (Std.TreeSet.mem_toList.1 ho)
  obtain ⟨s', hs', -⟩ : Succeeds (fun _ => True) (step (env p variableIndex) s n) := by
    refine Succeeds.bind (Succeeds.foldlM h fun s o ho hs =>
      succeeds_stepObject hfit hp hA hb hs (hset ho)) fun t _ => ?_
    exact .ok trivial
  obtain ⟨hadv, -⟩ := step_spec hp hA hb h hs'
  exact ⟨s', hs', h.extend hadv.inv hadv.grows.toExtends hadv.debt_le⟩

theorem succeeds_solve (bound : Nat) (h : Ready p variableIndex A s) :
    Succeeds (Ready p variableIndex A) (solve (env p variableIndex) bound s) := by
  induction bound generalizing s with
  | zero => exact .ok h
  | succ bound ih =>
    unfold solve
    split
    · exact .ok h
    · next n queue hq =>
      exact (succeeds_step hfit hp hA hb (h.dequeue hq) n).bind fun t ht => ih ht

theorem succeeds_rounds (bound k : Nat) (h : Ready p variableIndex A s) :
    Succeeds (fun _ => True) (rounds (env p variableIndex) bound k s) := by
  induction k generalizing s with
  | zero => exact .ok trivial
  | succ k ih =>
    unfold rounds
    refine (succeeds_solve hfit hp hA hb bound h).bind fun t ht => ?_
    have hnext := (linkJoins_spec hp hA hb ht).1.ready ht
    dsimp only
    split
    · exact .ok trivial
    · exact ih hnext

end

end Solver

variable {p : Program} {variableIndex : Bool} {t : PointsTo}

/-- **The points-to analysis succeeds** if the offsets of the program fit. -/
theorem succeeds_analyze (hp : p.Finished) (hfit : p.OffsetsFit)
    (variableIndex : Bool) : Succeeds (fun _ => True) (analyze p variableIndex) := by
  have hwf := hp.wellFormed
  have hclosed : (Assignment.full p).Closed p variableIndex := Assignment.closed_full hwf
  have hfull : (Assignment.full p).Bounded p :=
    ⟨fun _ => subset_rfl, fun _ => subset_rfl, fun _ => subset_rfl, fun _ => subset_rfl⟩
  have hready := (Solver.ready_seed hwf hclosed).1
  exact (Solver.succeeds_rounds hfit hwf hclosed hfull _ _ hready).bind fun _ _ => .ok trivial

/-- The edges of the result that project by a constant come from the program. -/
theorem mem_offsets_of_edge (hp : p.Finished) (h : analyze p variableIndex = .ok t) {e : Edge}
    {k : Nat} (he : e ∈ t.graph.edges) (hk : e.kind = .field k) : k ∈ p.offsets := by
  obtain ⟨s, rfl, hsolved⟩ := exists_solved hp h
  exact hsolved.ready.inv.mem_offsets he hk

/-- Projecting an object of the result by an offset of the program succeeds. -/
theorem exists_project_of_mem_offsets (hp : p.Finished) (h : analyze p variableIndex = .ok t)
    (hfit : p.OffsetsFit) {k : Nat} (hk : k ∈ p.offsets) (o : Nat) :
    ∃ x, t.objs.project o k = .ok x := by
  obtain ⟨s, rfl, hsolved⟩ := exists_solved hp h
  rw [hsolved.ready.inv.objs.project_eq]
  exact Solver.exists_project_objects hfit hk o

end PointsTo

end DataRace
