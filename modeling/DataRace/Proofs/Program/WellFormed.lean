import DataRace.Proofs.Program.Arranged

/-!
# DataRace.Proofs.Program.WellFormed

Tables that agree with each other.

A look-up never fails, so an analysis would go on with a default entry where a
handle is off its table.  `Program.WellFormed` says that this does not happen
and that the tables agree with each other.  Every change that building makes to
the tables keeps it:

* `WellFormed.pushValue`, `pushGlobal`, `declared` — new values, globals, functions;
* `WellFormed.withBlock`, `appended`, `modifyInst` — new blocks and instructions.
-/

namespace DataRace

/-- The tables of a program agree with each other. -/
structure Program.WellFormed (p : Program) : Prop where
  operand_lt : ∀ {i v : Nat}, v ∈ (p.op i).operands → v < p.values.size
  successor_lt : ∀ {i b : Nat}, b ∈ (p.op i).successors → b < p.blocks.size
  callee_lt : ∀ {i f : Nat}, p.directCallee i = some f → f < p.funcs.size
  /-- An instruction defines its result and no other value. -/
  result_iff : ∀ {i v : Nat}, p.result i = some v ↔
    v < p.values.size ∧ (p.value v).definition = .inst i
  result_isSome : ∀ {i : Nat}, i < p.insts.size → (p.result i).isSome = (p.op i).hasResult
  param_lt : ∀ {f v : Nat}, v ∈ (p.func f).params → v < p.values.size
  param_def : ∀ {f v : Nat}, v ∈ (p.func f).params → ∃ k, (p.value v).definition = .param f k
  /-- A function has one address, and that is its own. -/
  addr_iff : ∀ {f v : Nat}, f < p.funcs.size ∧ (p.func f).addr = v ↔
    v < p.values.size ∧ (p.value v).definition = .function f
  global_lt : ∀ {g : Nat}, g < p.globals.size → (p.global g).addr < p.values.size
  global_def : ∀ {g : Nat}, g < p.globals.size → (p.value (p.global g).addr).definition = .global g
  /-- A block lists an instruction where the instruction says it is. -/
  position_iff : ∀ {b k i : Nat}, (p.block b).insts[k]? = some i ↔
    i < p.insts.size ∧ p.blockOf i = b ∧ (p.inst i).pos = k
  blockOf_lt : ∀ {i : Nat}, i < p.insts.size → p.blockOf i < p.blocks.size
  /-- A function lists a block if the block says it belongs to it. -/
  mem_blocks_iff : ∀ {b f : Nat}, b ∈ (p.func f).blocks ↔ b < p.blocks.size ∧ (p.block b).func = f
  /-- Instructions are appended to bodies only. -/
  funcOf_defined : ∀ {i : Nat}, i < p.insts.size → (p.func (p.funcOf i)).blocks ≠ []

/-- The function that an operation names. -/
def Operation.callee? : Operation → Option FuncId
  | call (.direct f) _ => some f
  | _ => none

theorem Program.directCallee_eq (p : Program) (i : InstId) : p.directCallee i = (p.op i).callee? :=
  rfl

namespace Builder

/-- The handles an operation refers to are in the tables. -/
structure Knows (p : Program) (op : Operation) : Prop where
  operands : ∀ v ∈ op.operands, v < p.values.size
  successors : ∀ b ∈ op.successors, b < p.blocks.size
  callee : ∀ f, op.callee? = some f → f < p.funcs.size

end Builder

/-! ## what each call keeps -/

namespace Program.WellFormed

variable {p : Program}

theorem arranged (h : p.WellFormed) : p.Arranged := ⟨h.position_iff, h.blockOf_lt, h.mem_blocks_iff⟩

theorem empty : Program.empty.WellFormed where
  operand_lt {i v} hv := by
    rw [op_of_size_le (Nat.zero_le i)] at hv
    cases hv
  successor_lt {i b} hb := by
    rw [op_of_size_le (Nat.zero_le i)] at hb
    cases hb
  callee_lt {i f} hf := by
    rw [directCallee, op_of_size_le (Nat.zero_le i)] at hf
    cases hf
  result_iff {i v} := by
    rw [result_of_size_le (Nat.zero_le i)]
    exact ⟨nofun, fun h => absurd h.1 (Nat.not_lt_zero v)⟩
  result_isSome h := absurd h (Nat.not_lt_zero _)
  param_lt {f v} hv := by
    rw [func_of_size_le (Nat.zero_le f)] at hv
    cases hv
  param_def {f v} hv := by
    rw [func_of_size_le (Nat.zero_le f)] at hv
    cases hv
  addr_iff := ⟨fun h => absurd h.1 (Nat.not_lt_zero _), fun h => absurd h.1 (Nat.not_lt_zero _)⟩
  global_lt h := absurd h (Nat.not_lt_zero _)
  global_def h := absurd h (Nat.not_lt_zero _)
  position_iff := Arranged.empty.position_iff
  blockOf_lt := Arranged.empty.blockOf_lt
  mem_blocks_iff := Arranged.empty.mem_blocks_iff
  funcOf_defined h := absurd h (Nat.not_lt_zero _)

/-- A value that no instruction, parameter or address stands for changes nothing. -/
theorem pushValue (h : p.WellFormed) {d : Definition} (hi : ∀ i, d ≠ .inst i)
    (hf : ∀ f, d ≠ .function f) : { p with values := p.values.push ⟨d, []⟩ }.WellFormed := by
  have hold {v : ValueId} (hv : v < p.values.size) :
      { p with values := p.values.push ⟨d, []⟩ }.value v = p.value v := Table.getD_push_of_lt hv
  have hnew : { p with values := p.values.push ⟨d, []⟩ }.value p.values.size = ⟨d, []⟩ := by
    unfold value
    rw [Table.getD_push, if_pos rfl]
  have hsize : (p.values.push ⟨d, []⟩).size = p.values.size + 1 := Array.size_push ..
  constructor
  case operand_lt => exact fun hv => hsize ▸ Nat.lt_succ_of_lt (h.operand_lt hv)
  case successor_lt => exact h.successor_lt
  case callee_lt => exact h.callee_lt
  case result_iff =>
    intro i v
    refine h.result_iff.trans ?_
    rw [hsize, Nat.lt_succ_iff_lt_or_eq]
    grind
  case result_isSome => exact h.result_isSome
  case param_lt => exact fun hv => hsize ▸ Nat.lt_succ_of_lt (h.param_lt hv)
  case param_def =>
    intro f v hv
    rw [hold (h.param_lt hv)]
    exact h.param_def hv
  case addr_iff =>
    intro f v
    refine h.addr_iff.trans ?_
    rw [hsize, Nat.lt_succ_iff_lt_or_eq]
    grind
  case global_lt => exact fun hg => hsize ▸ Nat.lt_succ_of_lt (h.global_lt hg)
  case global_def =>
    intro g hg
    exact (hold (h.global_lt hg)).symm ▸ h.global_def hg
  case position_iff => exact h.position_iff
  case blockOf_lt => exact h.blockOf_lt
  case mem_blocks_iff => exact h.mem_blocks_iff
  case funcOf_defined => exact h.funcOf_defined

theorem pushGlobal (h : p.WellFormed) {g : Global} (hlt : g.addr < p.values.size)
    (hdef : (p.value g.addr).definition = .global p.globals.size) :
    { p with globals := p.globals.push g }.WellFormed := by
  have hlook {k : Nat} : { p with globals := p.globals.push g }.global k =
      if k = p.globals.size then g else p.global k := Table.getD_push ..
  constructor
  case global_lt =>
    intro k hk
    rw [Array.size_push] at hk
    rw [hlook]
    split
    · exact hlt
    · exact h.global_lt (by omega)
  case global_def =>
    intro k hk
    rw [Array.size_push] at hk
    rw [hlook]
    split
    · next heq => exact heq ▸ hdef
    · exact h.global_def (by omega)
  case operand_lt => exact h.operand_lt
  case successor_lt => exact h.successor_lt
  case callee_lt => exact h.callee_lt
  case result_iff => exact h.result_iff
  case result_isSome => exact h.result_isSome
  case param_lt => exact h.param_lt
  case param_def => exact h.param_def
  case addr_iff => exact h.addr_iff
  case position_iff => exact h.position_iff
  case blockOf_lt => exact h.blockOf_lt
  case mem_blocks_iff => exact h.mem_blocks_iff
  case funcOf_defined => exact h.funcOf_defined

/-- A declared function brings its address and its parameters as new values. -/
theorem declared (h : p.WellFormed) (name : String) (n : Nat) :
    (p.declared name n).WellFormed := by
  have hfunc {f : Nat} := p.func_declared name n f
  have hsize : (p.declared name n).values.size = p.values.size + 1 + n := by
    simp [Program.declared]
  have hold {v : Nat} (hv : v < p.values.size) : (p.declared name n).value v = p.value v := by
    simp only [Program.declared, value, Array.getD_eq_getD_getElem?, Array.getElem?_append,
      Array.getElem?_push, Array.size_push]
    grind
  have haddr : (p.declared name n).value p.values.size = ⟨.function p.funcs.size, []⟩ := by
    simp only [Program.declared, value, Array.getD_eq_getD_getElem?, Array.getElem?_append,
      Array.getElem?_push, Array.size_push]
    grind
  have hparam {k : Nat} (hk : k < n) :
      (p.declared name n).value (p.values.size + 1 + k) = ⟨.param p.funcs.size k, []⟩ := by
    simp [Program.declared, value, hk]
  have hcases {v : Nat} (hv : v < p.values.size + 1 + n) :
      v < p.values.size ∨ v = p.values.size ∨ ∃ k < n, v = p.values.size + 1 + k := by
    by_cases hk : p.values.size < v
    · exact .inr (.inr ⟨v - (p.values.size + 1), by omega, by omega⟩)
    · omega
  constructor
  case operand_lt =>
    exact fun hv => hsize ▸ Nat.lt_add_right n (Nat.lt_succ_of_lt (h.operand_lt hv))
  case successor_lt => exact h.successor_lt
  case callee_lt =>
    intro i f hf
    exact (Array.size_push ..).symm ▸ Nat.lt_succ_of_lt (h.callee_lt hf)
  case result_iff =>
    intro i v
    refine h.result_iff.trans ?_
    rw [hsize]
    constructor
    · rintro ⟨hv, hdef⟩
      exact ⟨by omega, hold hv ▸ hdef⟩
    · rintro ⟨hv, hdef⟩
      obtain hv | rfl | ⟨k, hk, rfl⟩ := hcases hv
      · exact ⟨hv, hold hv ▸ hdef⟩
      · rw [haddr] at hdef
        cases hdef
      · rw [hparam hk] at hdef
        cases hdef
  case result_isSome => exact h.result_isSome
  case param_lt =>
    intro f v hv
    rw [hfunc] at hv
    split at hv
    · simp only [List.mem_map, List.mem_range] at hv
      obtain ⟨k, hk, rfl⟩ := hv
      omega
    · have := h.param_lt hv
      omega
  case param_def =>
    intro f v hv
    rw [hfunc] at hv
    split at hv
    · next heq =>
      simp only [List.mem_map, List.mem_range] at hv
      obtain ⟨k, hk, rfl⟩ := hv
      exact ⟨k, by rw [hparam hk, heq]⟩
    · rw [hold (h.param_lt hv)]
      exact h.param_def hv
  case addr_iff =>
    intro f v
    have hfs : (p.declared name n).funcs.size = p.funcs.size + 1 := Array.size_push ..
    have hnone (v : Nat) (hv : v < p.values.size) :
        (p.value v).definition ≠ .function p.funcs.size :=
      fun hdef => absurd (h.addr_iff.2 ⟨hv, hdef⟩).1 (Nat.lt_irrefl _)
    rw [hfs, hsize, hfunc]
    constructor
    · rintro ⟨hf, rfl⟩
      split
      · next heq => exact ⟨by dsimp only; omega, by rw [haddr, heq]⟩
      · obtain ⟨hv, hdef⟩ := h.addr_iff.1 ⟨(by omega : f < p.funcs.size), rfl⟩
        exact ⟨by omega, by rw [hold hv, hdef]⟩
    · rintro ⟨hv, hdef⟩
      obtain hv | rfl | ⟨k, hk, rfl⟩ := hcases hv
      · rw [hold hv] at hdef
        obtain ⟨hf, rfl⟩ := h.addr_iff.2 ⟨hv, hdef⟩
        exact ⟨by omega, by rw [if_neg (by omega)]⟩
      · rw [haddr] at hdef
        cases hdef
        exact ⟨by omega, by rw [if_pos rfl]⟩
      · rw [hparam hk] at hdef
        cases hdef
  case global_lt => exact fun hg => hsize ▸ Nat.lt_add_right n (Nat.lt_succ_of_lt (h.global_lt hg))
  case global_def =>
    intro g hg
    exact (hold (h.global_lt hg)).symm ▸ h.global_def hg
  case position_iff => exact (h.arranged.declared name n).position_iff
  case blockOf_lt => exact (h.arranged.declared name n).blockOf_lt
  case mem_blocks_iff => exact (h.arranged.declared name n).mem_blocks_iff
  case funcOf_defined =>
    intro i hi
    rw [blocks_declared]
    exact h.funcOf_defined hi

/-- A new block is empty and belongs to its function. -/
theorem withBlock (h : p.WellFormed) {f : Nat} (hf : f < p.funcs.size) :
    (p.withBlock f).WellFormed := by
  have harr := h.arranged.withBlock hf
  generalize hq : p.withBlock f = q at harr
  have hfunc {g : Nat} : q.func g = if f = g ∧ f < p.funcs.size then
      { p.func g with blocks := (p.func g).blocks ++ [p.blocks.size] } else p.func g :=
    hq ▸ func_withBlock g
  have hparams {g : Nat} : (q.func g).params = (p.func g).params := by rw [hfunc]; split <;> rfl
  have haddr {g : Nat} : (q.func g).addr = (p.func g).addr := by rw [hfunc]; split <;> rfl
  have hsize : q.blocks.size = p.blocks.size + 1 := hq ▸ size_blocks_withBlock
  have hfuncs : q.funcs.size = p.funcs.size := hq ▸ Array.size_modify ..
  have hvalue : q.value = p.value := hq ▸ rfl
  have hvalues : q.values = p.values := hq ▸ rfl
  have hinst : q.inst = p.inst := hq ▸ rfl
  have hinsts : q.insts = p.insts := hq ▸ rfl
  have hop : q.op = p.op := hq ▸ rfl
  constructor
  case operand_lt => exact fun hv => by rw [hvalues]; exact h.operand_lt (hop ▸ hv)
  case successor_lt =>
    intro i b hb
    rw [hop] at hb
    exact hsize ▸ Nat.lt_succ_of_lt (h.successor_lt hb)
  case callee_lt =>
    intro i g hg
    rw [directCallee, hop] at hg
    exact hfuncs ▸ h.callee_lt hg
  case result_iff =>
    intro i v
    rw [result, hinst, hvalues, hvalue]
    exact h.result_iff
  case result_isSome =>
    intro i hi
    rw [hinsts] at hi
    rw [result, hinst, hop]
    exact h.result_isSome hi
  case param_lt => exact fun hv => by rw [hvalues]; exact h.param_lt (hparams ▸ hv)
  case param_def =>
    intro g v hv
    rw [hparams] at hv
    rw [hvalue]
    exact h.param_def hv
  case addr_iff =>
    intro g v
    rw [hfuncs, haddr, hvalues, hvalue]
    exact h.addr_iff
  case global_lt => subst hq; exact h.global_lt
  case global_def => subst hq; exact h.global_def
  case position_iff => exact harr.position_iff
  case blockOf_lt => exact harr.blockOf_lt
  case mem_blocks_iff => exact harr.mem_blocks_iff
  case funcOf_defined =>
    intro i hi
    rw [hinsts] at hi
    have hdef := h.funcOf_defined hi
    rw [funcOf, hinst, hfunc]
    split
    · simp
    · exact hdef

/-- An appended instruction stands last in its block and defines a new value or none. -/
theorem appended (h : p.WellFormed) {c : Cursor} {op : Operation}
    (hfunc : (p.func c.func).blocks ≠ []) (hblock : c.block < p.blocks.size)
    (hop : Builder.Knows p op) : (p.appended c op).WellFormed := by
  have harr := h.arranged.appended op hblock
  have hinst {i : Nat} := @inst_appended p c op i
  have hinsts := @size_insts_appended p c op
  have hblocks := @size_blocks_appended p c op
  have hvalues {v : Nat} : v < (p.appended c op).values.size ↔
      v < p.values.size ∨ op.hasResult = true ∧ v = p.values.size := by
    unfold Program.appended
    split
    · next hr => simp only [Array.size_push, hr, true_and, Nat.lt_succ_iff_lt_or_eq]
    · next hr => simp only [hr, Bool.false_eq_true, false_and, or_false]
  have hle {v : Nat} (hv : v < p.values.size) : v < (p.appended c op).values.size :=
    hvalues.2 (.inl hv)
  have hold {v : Nat} (hv : v < p.values.size) : (p.appended c op).value v = p.value v := by
    unfold Program.appended value
    cases op.hasResult with
    | true => exact Table.getD_push_of_lt hv
    | false => rfl
  have hnew (hr : op.hasResult = true) :
      (p.appended c op).value p.values.size = ⟨.inst p.insts.size, []⟩ := by
    simp only [Program.appended, value, hr, if_true]
    rw [Table.getD_push, if_pos rfl]
  have hfresh {v : Nat} (hv : v < p.values.size) : (p.value v).definition ≠ .inst p.insts.size := by
    intro hdef
    have hres := h.result_iff.2 ⟨hv, hdef⟩
    rw [result_of_size_le (Nat.le_refl _)] at hres
    cases hres
  constructor
  case operand_lt =>
    intro i v hv
    rw [Program.op, hinst] at hv
    split at hv
    · exact hle (hop.operands v hv)
    · exact hle (h.operand_lt hv)
  case successor_lt =>
    intro i b hb
    rw [Program.op, hinst] at hb
    rw [hblocks]
    split at hb
    · exact hop.successors b hb
    · exact h.successor_lt hb
  case callee_lt =>
    intro i f hf
    rw [directCallee_eq, Program.op, hinst] at hf
    split at hf
    · exact hop.callee f hf
    · exact h.callee_lt hf
  case result_iff =>
    intro i v
    have hres := h.result_iff (i := i) (v := v)
    rw [hvalues, result, hinst]
    constructor
    · intro hv
      split at hv
      · next heq =>
        cases hr : op.hasResult with
        | true =>
          simp only [hr, if_true, Option.some.injEq] at hv
          subst hv
          exact ⟨.inr ⟨rfl, rfl⟩, by rw [hnew hr, heq]⟩
        | false =>
          simp only [hr, Bool.false_eq_true, if_false] at hv
          cases hv
      · obtain ⟨hlt, hdef⟩ := hres.1 hv
        exact ⟨.inl hlt, by rw [hold hlt, hdef]⟩
    · rintro ⟨hlt | ⟨hr, rfl⟩, hdef⟩
      · rw [hold hlt] at hdef
        rw [if_neg fun heq : i = p.insts.size => hfresh hlt (heq ▸ hdef)]
        exact hres.2 ⟨hlt, hdef⟩
      · rw [hnew hr] at hdef
        cases hdef
        rw [if_pos rfl, if_pos hr]
  case result_isSome =>
    intro i hi
    rw [result, Program.op, hinst]
    split
    · cases op.hasResult <;> rfl
    · exact h.result_isSome (by omega)
  case param_lt => exact fun hv => hle (h.param_lt hv)
  case param_def =>
    intro f v hv
    rw [hold (h.param_lt hv)]
    exact h.param_def hv
  case addr_iff =>
    intro f v
    refine h.addr_iff.trans ?_
    rw [hvalues]
    constructor
    · rintro ⟨hv, hdef⟩
      exact ⟨.inl hv, by rw [hold hv, hdef]⟩
    · rintro ⟨hv | ⟨hr, rfl⟩, hdef⟩
      · exact ⟨hv, hold hv ▸ hdef⟩
      · rw [hnew hr] at hdef
        cases hdef
  case global_lt => exact fun hg => hle (h.global_lt hg)
  case global_def =>
    intro g hg
    exact (hold (h.global_lt hg)).symm ▸ h.global_def hg
  case position_iff => exact harr.position_iff
  case blockOf_lt => exact harr.blockOf_lt
  case mem_blocks_iff => exact harr.mem_blocks_iff
  case funcOf_defined =>
    intro i hi
    rw [funcOf, hinst]
    split
    · exact hfunc
    · exact h.funcOf_defined (by omega)

/-- An instruction may change what it does, as long as it stays where it is. -/
theorem modifyInst (h : p.WellFormed) {i : Nat} {f : Instruction → Instruction}
    (hplace : ∀ x, (f x).func = x.func ∧ (f x).block = x.block ∧ (f x).pos = x.pos ∧
      (f x).result = x.result)
    (hresult : (f (p.inst i)).op.hasResult = (p.op i).hasResult)
    (hop : Builder.Knows p (f (p.inst i)).op) :
    { p with insts := p.insts.modify i f }.WellFormed := by
  have harr := h.arranged.modifyInst (i := i) fun x => ⟨(hplace x).2.1, (hplace x).2.2.1⟩
  generalize hq : { p with insts := p.insts.modify i f } = q at harr
  have hinst {j : Nat} : q.inst j = if i = j ∧ i < p.insts.size then f (p.inst j) else p.inst j :=
    hq ▸ Table.getD_modify ..
  have hinsts : q.insts.size = p.insts.size := hq ▸ Array.size_modify ..
  have hkeep {j : Nat} : (q.inst j).func = (p.inst j).func ∧ (q.inst j).block = (p.inst j).block ∧
      (q.inst j).pos = (p.inst j).pos ∧ (q.inst j).result = (p.inst j).result := by
    rw [hinst]
    split
    · exact hplace _
    · exact ⟨rfl, rfl, rfl, rfl⟩
  have hcases {j : Nat} : q.op j = (f (p.inst i)).op ∧ j = i ∨ q.op j = p.op j := by
    rw [Program.op, hinst]
    split
    · next heq => exact .inl ⟨by rw [heq.1], heq.1.symm⟩
    · exact .inr rfl
  have hvalue : q.value = p.value := hq ▸ rfl
  have hvalues : q.values = p.values := hq ▸ rfl
  have hblock : q.block = p.block := hq ▸ rfl
  have hblocks : q.blocks = p.blocks := hq ▸ rfl
  have hfunc : q.func = p.func := hq ▸ rfl
  have hfuncs : q.funcs = p.funcs := hq ▸ rfl
  constructor
  case operand_lt =>
    intro j v hv
    rw [hvalues]
    obtain ⟨heq, -⟩ | heq := hcases (j := j)
    · exact hop.operands v (heq ▸ hv)
    · exact h.operand_lt (heq ▸ hv)
  case successor_lt =>
    intro j b hb
    rw [hblocks]
    obtain ⟨heq, -⟩ | heq := hcases (j := j)
    · exact hop.successors b (heq ▸ hb)
    · exact h.successor_lt (heq ▸ hb)
  case callee_lt =>
    intro j g hg
    rw [hfuncs]
    rw [directCallee_eq] at hg
    obtain ⟨heq, -⟩ | heq := hcases (j := j)
    · exact hop.callee g (heq ▸ hg)
    · exact h.callee_lt (heq ▸ hg)
  case result_iff =>
    intro j v
    rw [result, hkeep.2.2.2, hvalues, hvalue]
    exact h.result_iff
  case result_isSome =>
    intro j hj
    rw [hinsts] at hj
    rw [result, hkeep.2.2.2]
    obtain ⟨heq, rfl⟩ | heq := hcases (j := j)
    · rw [heq, hresult]
      exact h.result_isSome hj
    · rw [heq]
      exact h.result_isSome hj
  case param_lt => rw [hfunc, hvalues]; exact h.param_lt
  case param_def => rw [hfunc, hvalue]; exact h.param_def
  case addr_iff => rw [hfunc, hfuncs, hvalue, hvalues]; exact h.addr_iff
  case global_lt => subst hq; exact h.global_lt
  case global_def => subst hq; exact h.global_def
  case position_iff => exact harr.position_iff
  case blockOf_lt => exact harr.blockOf_lt
  case mem_blocks_iff => exact harr.mem_blocks_iff
  case funcOf_defined =>
    intro j hj
    rw [hinsts] at hj
    rw [funcOf, hkeep.1, hfunc]
    exact h.funcOf_defined hj

end Program.WellFormed

end DataRace
