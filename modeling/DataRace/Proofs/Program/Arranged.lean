import DataRace.Program.Builder
import Mathlib.Data.List.Basic

/-!
# DataRace.Proofs.Program.Arranged

Blocks list their instructions, and functions list their blocks.

An instruction says in which block it stands and where, a block says to which
function it belongs.  `Program.Arranged` says that the lists of the blocks and
of the functions tell the same.  Every change that building makes to the tables
keeps it, whatever handles an operation refers to; `Builder.Sealed`, that a
terminator is the last of its block, is kept where nothing is appended behind
one.
-/

namespace DataRace

/-! ## look-ups after an update -/

namespace Table

variable {α : Type}

theorem getD_push (xs : Array α) (x d : α) (i : Nat) :
    (xs.push x).getD i d = if i = xs.size then x else xs.getD i d := by
  simp only [Array.getD_eq_getD_getElem?, Array.getElem?_push]
  split <;> rfl

theorem getD_push_of_lt {xs : Array α} {x d : α} {i : Nat} (h : i < xs.size) :
    (xs.push x).getD i d = xs.getD i d := by
  rw [getD_push, if_neg (Nat.ne_of_lt h)]

theorem getD_modify (xs : Array α) (d : α) (f : α → α) (i j : Nat) :
    (xs.modify i f).getD j d = if i = j ∧ i < xs.size then f (xs.getD j d) else xs.getD j d := by
  simp only [Array.getD_eq_getD_getElem?, Array.getElem?_modify]
  grind

theorem getD_of_size_le {xs : Array α} {d : α} {i : Nat} (h : xs.size ≤ i) : xs.getD i d = d := by
  rw [Array.getD_eq_getD_getElem?, Array.getElem?_eq_none h, Option.getD_none]

theorem getD_mapIdx {β : Type} {xs : Array α} {f : Nat → α → β} {d : α} {e : β} {i : Nat}
    (h : i < xs.size) : (xs.mapIdx f).getD i e = f i (xs.getD i d) := by
  simp only [Array.getD_eq_getD_getElem?, Array.getElem?_mapIdx, Array.getElem?_eq_getElem h,
    Option.map_some, Option.getD_some]

end Table

namespace Program

variable {p : Program}

theorem func_of_size_le {f : FuncId} (h : p.funcs.size ≤ f) : p.func f = default :=
  Table.getD_of_size_le h

theorem block_of_size_le {b : BlockId} (h : p.blocks.size ≤ b) : p.block b = default :=
  Table.getD_of_size_le h

theorem op_of_size_le {i : InstId} (h : p.insts.size ≤ i) : p.op i = .alloc false 0 := by
  rw [op, inst, Table.getD_of_size_le h]
  rfl

theorem result_of_size_le {i : InstId} (h : p.insts.size ≤ i) : p.result i = none := by
  rw [result, inst, Table.getD_of_size_le h]
  rfl

theorem lt_of_result {i v : Nat} (h : p.result i = some v) : i < p.insts.size := by
  by_contra hle
  rw [result_of_size_le (Nat.le_of_not_lt hle)] at h
  cases h

/-- The tables after a function is declared. -/
def declared (p : Program) (name : String) (n : Nat) : Program :=
  { p with
    values := p.values.push ⟨.function p.funcs.size, []⟩ ++
      (Array.range n).map fun k => ⟨.param p.funcs.size k, []⟩
    funcs := p.funcs.push
      ⟨name, (List.range n).map (p.values.size + 1 + ·), [], p.values.size⟩ }

/-- The tables after a block is added. -/
def withBlock (p : Program) (f : FuncId) : Program :=
  { p with
    blocks := p.blocks.push ⟨f, [], [], []⟩
    funcs := p.funcs.modify f fun fn => { fn with blocks := fn.blocks ++ [p.blocks.size] } }

/-- The tables after an instruction is appended. -/
def appended (p : Program) (c : Cursor) (op : Operation) : Program :=
  { p with
    values := if op.hasResult then p.values.push ⟨.inst p.insts.size, []⟩ else p.values
    insts := p.insts.push
      { func := c.func, block := c.block, pos := (p.block c.block).insts.length, op,
        result := if op.hasResult then some p.values.size else none, loc := c.loc }
    blocks := p.blocks.modify c.block fun bl => { bl with insts := bl.insts ++ [p.insts.size] } }

section

variable {c : Cursor} {op : Operation} {f : FuncId}

theorem func_declared (name : String) (n g : Nat) : (p.declared name n).func g =
    if g = p.funcs.size then
      ⟨name, (List.range n).map (p.values.size + 1 + ·), [], p.values.size⟩
    else p.func g := Table.getD_push ..

theorem blocks_declared {name : String} {n : Nat} (g : Nat) :
    ((p.declared name n).func g).blocks = (p.func g).blocks := by
  rw [func_declared]
  split
  · next heq => rw [func_of_size_le (Nat.le_of_eq heq.symm)]; rfl
  · rfl

theorem block_withBlock (b : Nat) : (p.withBlock f).block b =
    if b = p.blocks.size then ⟨f, [], [], []⟩ else p.block b := Table.getD_push ..

theorem func_withBlock (g : Nat) : (p.withBlock f).func g =
    if f = g ∧ f < p.funcs.size then
      { p.func g with blocks := (p.func g).blocks ++ [p.blocks.size] }
    else p.func g := Table.getD_modify ..

theorem inst_appended (i : Nat) : (p.appended c op).inst i = if i = p.insts.size then
    { func := c.func, block := c.block, pos := (p.block c.block).insts.length, op,
      result := if op.hasResult then some p.values.size else none, loc := c.loc }
    else p.inst i := Table.getD_push ..

theorem block_appended (b : Nat) : (p.appended c op).block b =
    if c.block = b ∧ c.block < p.blocks.size then
      { p.block b with insts := (p.block b).insts ++ [p.insts.size] }
    else p.block b := Table.getD_modify ..

theorem size_insts_appended : (p.appended c op).insts.size = p.insts.size + 1 := Array.size_push ..

theorem size_blocks_appended : (p.appended c op).blocks.size = p.blocks.size := Array.size_modify ..

theorem size_blocks_withBlock : (p.withBlock f).blocks.size = p.blocks.size + 1 :=
  Array.size_push ..

end

end Program

/-! ## instructions in blocks, blocks in functions -/

/-- Blocks list their instructions, and functions list their blocks. -/
structure Program.Arranged (p : Program) : Prop where
  /-- A block lists an instruction where the instruction says it is. -/
  position_iff : ∀ {b k i : Nat}, (p.block b).insts[k]? = some i ↔
    i < p.insts.size ∧ p.blockOf i = b ∧ (p.inst i).pos = k
  blockOf_lt : ∀ {i : Nat}, i < p.insts.size → p.blockOf i < p.blocks.size
  /-- A function lists a block if the block says it belongs to it. -/
  mem_blocks_iff : ∀ {b f : Nat}, b ∈ (p.func f).blocks ↔ b < p.blocks.size ∧ (p.block b).func = f

namespace Program.Arranged

variable {p : Program}

theorem empty : Program.empty.Arranged where
  position_iff {b k i} := by
    rw [block_of_size_le (Nat.zero_le b)]
    exact ⟨fun h => (by cases h), fun h => absurd h.1 (Nat.not_lt_zero i)⟩
  blockOf_lt h := absurd h (Nat.not_lt_zero _)
  mem_blocks_iff {b f} := by
    rw [func_of_size_le (Nat.zero_le f)]
    exact ⟨fun h => (by cases h), fun h => absurd h.1 (Nat.not_lt_zero b)⟩

theorem declared (h : p.Arranged) (name : String) (n : Nat) : (p.declared name n).Arranged where
  position_iff := h.position_iff
  blockOf_lt := h.blockOf_lt
  mem_blocks_iff {b f} := by
    rw [blocks_declared]
    exact h.mem_blocks_iff

/-- A new block is empty and belongs to its function. -/
theorem withBlock (h : p.Arranged) {f : FuncId} (hf : f < p.funcs.size) :
    (p.withBlock f).Arranged where
  position_iff {b k i} := by
    rw [block_withBlock]
    split
    · next heq =>
      constructor
      · intro hk
        cases hk
      · rintro ⟨hi, rfl, -⟩
        exact absurd (h.blockOf_lt hi) (Nat.not_lt.2 (Nat.le_of_eq heq.symm))
    · exact h.position_iff
  blockOf_lt hi := by
    rw [size_blocks_withBlock]
    exact Nat.lt_succ_of_lt (h.blockOf_lt hi)
  mem_blocks_iff {b g} := by
    have hold := h.mem_blocks_iff (b := b) (f := g)
    rw [func_withBlock, block_withBlock, size_blocks_withBlock]
    grind

/-- An appended instruction stands last in its block. -/
theorem appended (h : p.Arranged) {c : Cursor} (op : Operation) (hblock : c.block < p.blocks.size) :
    (p.appended c op).Arranged where
  position_iff {b k i} := by
    have hpos := h.position_iff (b := b) (k := k) (i := i)
    have hlast : (p.block c.block).insts[(p.block c.block).insts.length]? = none :=
      List.getElem?_eq_none (Nat.le_refl _)
    rw [size_insts_appended, blockOf, inst_appended, block_appended]
    unfold blockOf at hpos
    grind
  blockOf_lt {i} hi := by
    rw [size_insts_appended] at hi
    rw [blockOf, inst_appended, size_blocks_appended]
    split
    · exact hblock
    · exact h.blockOf_lt (by omega)
  mem_blocks_iff {b f} := by
    refine h.mem_blocks_iff.trans ?_
    rw [size_blocks_appended, block_appended]
    split <;> rfl

/-- An instruction may change what it does, as long as it stays where it is. -/
theorem modifyInst (h : p.Arranged) {i : InstId} {f : Instruction → Instruction}
    (hplace : ∀ x, (f x).block = x.block ∧ (f x).pos = x.pos) :
    { p with insts := p.insts.modify i f }.Arranged := by
  have hinst (j : InstId) : { p with insts := p.insts.modify i f }.inst j =
      if i = j ∧ i < p.insts.size then f (p.inst j) else p.inst j := Table.getD_modify ..
  have hkeep (j : InstId) :
      ({ p with insts := p.insts.modify i f }.inst j).block = (p.inst j).block ∧
      ({ p with insts := p.insts.modify i f }.inst j).pos = (p.inst j).pos := by
    rw [hinst]
    split
    · exact hplace _
    · exact ⟨rfl, rfl⟩
  have hsize : (p.insts.modify i f).size = p.insts.size := Array.size_modify ..
  constructor
  case position_iff =>
    intro b k j
    rw [blockOf, (hkeep j).1, (hkeep j).2]
    exact hsize ▸ h.position_iff
  case blockOf_lt =>
    intro j hj
    rw [blockOf, (hkeep j).1]
    exact h.blockOf_lt (hsize ▸ hj)
  case mem_blocks_iff => exact h.mem_blocks_iff

/-- An instruction stands once in the blocks of a function. -/
theorem mem_funcInsts_iff (h : p.Arranged) {f : FuncId} {i : InstId} :
    i ∈ p.funcInsts f ↔ i < p.insts.size ∧ (p.block (p.blockOf i)).func = f := by
  rw [funcInsts, List.mem_flatMap]
  constructor
  · rintro ⟨b, hb, hi⟩
    obtain ⟨k, hk⟩ := List.mem_iff_getElem?.1 hi
    obtain ⟨hlt, rfl, -⟩ := h.position_iff.1 hk
    exact ⟨hlt, (h.mem_blocks_iff.1 hb).2⟩
  · rintro ⟨hlt, hfunc⟩
    refine ⟨p.blockOf i, h.mem_blocks_iff.2 ⟨h.blockOf_lt hlt, hfunc⟩, ?_⟩
    exact List.mem_of_getElem? (h.position_iff.2 ⟨hlt, rfl, rfl⟩)

end Program.Arranged

/-! ## terminators -/

namespace Builder

/-- Only the last instruction of a block is a terminator. -/
def Sealed (p : Program) : Prop :=
  ∀ i < p.insts.size, (p.op i).isTerminator = true →
    (p.inst i).pos + 1 = (p.block (p.blockOf i)).insts.length

namespace Sealed

variable {p q : Program}

theorem congr (h : Sealed p) (hinsts : q.insts = p.insts)
    (hblock : ∀ i < p.insts.size, (q.block (p.blockOf i)).insts = (p.block (p.blockOf i)).insts) :
    Sealed q := by
  intro i hi hterm
  have hinst : q.inst i = p.inst i := by rw [Program.inst, hinsts]; rfl
  rw [hinsts] at hi
  rw [Program.op, hinst] at hterm
  rw [Program.blockOf, hinst]
  exact (h i hi hterm).trans (congrArg List.length (hblock i hi).symm)

/-- An instruction is appended where no terminator stands. -/
theorem appended (h : Sealed p) (hp : p.Arranged) {c : Cursor} {op : Operation}
    (hc : c.block < p.blocks.size) (hopen : Build.isClosed p c.block = false) :
    Sealed (p.appended c op) := by
  intro i hi hterm
  rw [Program.op, Program.inst_appended] at hterm
  rw [Program.blockOf, Program.inst_appended, Program.block_appended]
  by_cases hnew : i = p.insts.size
  · simp [hnew, hc]
  · rw [if_neg hnew] at hterm ⊢
    rw [Program.size_insts_appended] at hi
    have hi : i < p.insts.size := by omega
    have hlast := h i hi hterm
    have hne : ¬(c.block = (p.inst i).block ∧ c.block < p.blocks.size) := by
      rintro ⟨heq, -⟩
      have hat : (p.block c.block).insts[(p.inst i).pos]? = some i :=
        hp.position_iff.2 ⟨hi, heq.symm, rfl⟩
      have hend : (p.block c.block).terminator = some i := by
        rw [Block.terminator, List.getLast?_eq_getElem?, ← hat, heq]
        congr 1
        rw [Program.blockOf] at hlast
        omega
      rw [Build.isClosed, hend, Option.any_some] at hopen
      exact absurd hterm (by rw [← Program.op, hopen]; simp)
    rw [if_neg hne]
    exact hlast

theorem withBlock (h : Sealed p) (hp : p.Arranged) (f : FuncId) : Sealed (p.withBlock f) := by
  refine h.congr rfl fun i hi => ?_
  rw [Program.block_withBlock, if_neg (Nat.ne_of_lt (hp.blockOf_lt hi))]

theorem modifyInst (h : Sealed p) {j : Nat} {f : Instruction → Instruction}
    (hf : ∀ x, (f x).block = x.block ∧ (f x).pos = x.pos ∧
      ((f x).op.isTerminator = true → x.op.isTerminator = true)) :
    Sealed { p with insts := p.insts.modify j f } := by
  have hinst {i : Nat} : { p with insts := p.insts.modify j f }.inst i =
      if j = i ∧ j < p.insts.size then f (p.inst i) else p.inst i := Table.getD_modify ..
  intro i hi hterm
  have hi : i < p.insts.size := by rwa [Array.size_modify] at hi
  obtain ⟨hblock, hpos, hop⟩ := hf (p.inst i)
  rw [Program.op, hinst] at hterm
  rw [Program.blockOf, hinst]
  by_cases hj : j = i ∧ j < p.insts.size
  · rw [if_pos hj] at hterm ⊢
    rw [hblock, hpos]
    exact h i hi (hop hterm)
  · rw [if_neg hj] at hterm ⊢
    exact h i hi hterm

/-- A terminator is the last of its block. -/
theorem terminator_eq (h : Sealed p) (hp : p.Arranged) {i : InstId} (hi : i < p.insts.size)
    (hterm : (p.op i).isTerminator = true) : (p.block (p.blockOf i)).terminator = some i := by
  have hlast := h i hi hterm
  rw [Block.terminator, List.getLast?_eq_getElem?, ← hp.position_iff.2 ⟨hi, rfl, rfl⟩]
  congr 1
  omega

end Sealed

end Builder

end DataRace
