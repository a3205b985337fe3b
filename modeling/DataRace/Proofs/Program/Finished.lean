import DataRace.Proofs.Program.Linked
import DataRace.Proofs.Program.WellFormed

/-!
# DataRace.Proofs.Program.Finished

Which programs exist: those a builder finishes after calls that only pass
handles handed out before.

* `Builder.Built` are the builders that calls of the interface lead to;
* `Builder.Built.wellFormed`: their tables are well formed;
* `Program.Finished` are the programs without a defect;
* `Program.Finished.wellFormed`, `Program.Finished.linked`: linking keeps the
  tables well formed and fills in the rest;
* `Program.Finished.exists_terminator`, `Program.Finished.pos_le_of_isTerminator`:
  a block ends with its only way out.
-/

namespace DataRace

namespace Builder

/-- The builders that calls of the interface lead to, when every handle passed in was handed out
before. -/
inductive Built : Builder → Prop where
  | start : Built {}
  | const {b} (c : Int64) : Built b → Built (Build.const c b).2
  | null {b} : Built b → Built (Build.null b).2
  | addGlobal {b} (name : String) (fields : Nat) (loc : Option Location) :
      Built b → Built (Build.addGlobal name fields loc b).2
  | declare {b} (name : String) (params : Nat) : Built b → Built (Build.declare name params b).2
  | beginBody {b} (f : FuncId) :
      f < b.program.funcs.size → Built b → Built (Build.beginBody f b).2
  | newBlock {b} (f : FuncId) :
      f < b.program.funcs.size → Built b → Built (Build.newBlock f b).2
  | append {b} (c : Cursor) (op : Operation) :
      (b.program.func c.func).blocks ≠ [] → c.block < b.program.blocks.size →
      Knows b.program op → Built b → Built (Build.append c op b).2
  | addIncoming {b b'} (phi val : ValueId) (source : BlockId) :
      phi < b.program.values.size → val < b.program.values.size →
      b.addIncoming phi val source = .ok b' → Built b → Built b'

/-! ## built programs are well formed -/

/-- A phi knows its inputs, the added one among them. -/
theorem knows_withInput {p : Program} (h : p.WellFormed) {i val : Nat} {source : BlockId}
    (hval : val < p.values.size) : Knows p ((p.inst i).withInput val source).op := by
  have hops {v : Nat} (hv : v ∈ (p.inst i).op.operands) := h.operand_lt hv
  unfold Instruction.withInput
  split
  · next ins hop =>
    rw [hop] at hops
    constructor
    · intro v hv
      simp only [Operation.operands, List.map_append, List.map_cons, List.map_nil,
        List.mem_append, List.mem_singleton] at hv
      obtain hv | rfl := hv
      · exact hops hv
      · exact hval
    · intro b hb
      cases hb
    · intro f hf
      cases hf
  · exact ⟨fun v => hops, fun b hb => h.successor_lt hb, fun f hf => h.callee_lt hf⟩

namespace Built

variable {b : Builder}

theorem wellFormed (h : b.Built) : b.program.WellFormed := by
  induction h with
  | start => exact .empty
  | @const b c _ ih =>
    obtain heq | heq := Build.const_program c b
    · rwa [heq]
    · rw [heq]
      exact ih.pushValue (by simp) (by simp)
  | @null b _ ih =>
    obtain heq | heq := Build.null_program b
    · rwa [heq]
    · rw [heq]
      exact ih.pushValue (by simp) (by simp)
  | @addGlobal b name fields loc _ ih =>
    have hval := ih.pushValue (d := .global b.program.globals.size) (by simp) (by simp)
    refine hval.pushGlobal (g := ⟨name, fields, b.program.values.size, loc⟩) ?_ ?_
    · exact (Array.size_push ..).symm ▸ Nat.lt_succ_self _
    · rw [Program.value, Table.getD_push, if_pos rfl]
  | @declare b name params _ ih =>
    obtain heq | heq := Build.declare_program name params b
    · rwa [heq]
    · rw [heq]
      exact ih.declared name params
  | @beginBody b f hf _ ih =>
    rw [Build.beginBody_program]
    exact ih.withBlock hf
  | newBlock f hf _ ih => exact ih.withBlock hf
  | @append b c op hfunc hblock hop _ ih =>
    rw [Build.append_program]
    exact ih.appended hfunc hblock hop
  | @addIncoming b b' phi val source hphi hval hadd _ ih =>
    obtain ⟨i, -, rfl⟩ := addIncoming_eq_ok hadd
    exact ih.modifyInst (fun x => x.withInput_place val source)
      (Instruction.hasResult_withInput val source _) (knows_withInput ih hval)

theorem made (h : b.Built) : b.Made := by
  induction h with
  | start => exact .start
  | const c _ ih => exact ih.const c
  | null _ ih => exact ih.null
  | addGlobal name fields loc _ ih => exact ih.addGlobal name fields loc
  | declare name params _ ih => exact ih.declare name params
  | beginBody f hf _ ih => exact ih.beginBody f hf
  | newBlock f hf _ ih => exact ih.newBlock f hf
  | append c op _ hblock _ _ ih => exact ih.append c op hblock
  | addIncoming phi val source _ _ hadd _ ih => exact ih.addIncoming phi val source hadd

end Built

/-! ## finished programs -/

variable {p : Program}

/-- Linking fills in edges and users only. -/
theorem wellFormed_link (h : p.WellFormed) : (link p).WellFormed := by
  constructor
  case operand_lt => exact fun hv => size_link_values.symm ▸ h.operand_lt hv
  case successor_lt => exact fun hb => size_link_blocks.symm ▸ h.successor_lt hb
  case callee_lt => exact h.callee_lt
  case result_iff =>
    intro i v
    refine h.result_iff.trans ?_
    rw [size_link_values, link_value_definition]
  case result_isSome => exact h.result_isSome
  case param_lt => exact fun hv => size_link_values.symm ▸ h.param_lt hv
  case param_def =>
    intro f v hv
    rw [link_value_definition]
    exact h.param_def hv
  case addr_iff =>
    intro f v
    refine h.addr_iff.trans ?_
    rw [size_link_values, link_value_definition]
  case global_lt => exact fun hg => size_link_values.symm ▸ h.global_lt hg
  case global_def =>
    intro g hg
    exact (link_value_definition _).trans (h.global_def hg)
  case position_iff =>
    intro b k i
    rw [link_block_insts]
    exact h.position_iff
  case blockOf_lt => exact fun hi => size_link_blocks.symm ▸ h.blockOf_lt hi
  case mem_blocks_iff =>
    intro b f
    rw [link_block_func, size_link_blocks]
    exact h.mem_blocks_iff
  case funcOf_defined => exact h.funcOf_defined

end Builder

namespace Program

/-- A program that a builder finished. -/
def Finished (p : Program) : Prop :=
  ∃ b : Builder, b.Built ∧ b.finish = .ok p

namespace Finished

variable {p : Program}

theorem wellFormed (h : p.Finished) : p.WellFormed := by
  obtain ⟨b, hb, hfin⟩ := h
  obtain ⟨-, -, -, rfl⟩ := Builder.finish_eq_ok_iff.1 hfin
  exact Builder.wellFormed_link hb.wellFormed

theorem linked (h : p.Finished) : p.Linked := by
  obtain ⟨b, hb, hfin⟩ := h
  exact hb.made.linked ⟨hb.wellFormed.operand_lt, hb.wellFormed.successor_lt⟩ hfin

/-- A block ends with its only way out, and control stays in the function. -/
theorem exists_terminator (h : p.Finished) {b : Nat} (hb : b < p.blocks.size) :
    ∃ t, (p.block b).terminator = some t ∧ (p.op t).isTerminator = true ∧
      (p.block b).succs = (p.op t).successors ∧
      ∀ c ∈ (p.block b).succs, (p.block c).func = (p.block b).func := by
  obtain ⟨t, ht, hsucc, hterm⟩ := h.linked.exists_terminator hb
  exact ⟨t, ht, (hterm t (List.mem_of_getLast? ht)).2 rfl, hsucc,
    fun c hc => (h.linked.succ_spec hc).2.2⟩

theorem succ_spec (h : p.Finished) {b c : Nat} (hc : c ∈ (p.block b).succs) :
    b < p.blocks.size ∧ c < p.blocks.size ∧ (p.block c).func = (p.block b).func :=
  h.linked.succ_spec hc

/-- Nothing stands behind a terminator. -/
theorem pos_le_of_isTerminator (h : p.Finished) {i j : Nat} (hi : i < p.insts.size)
    (hterm : (p.op i).isTerminator = true) (hj : j < p.insts.size)
    (hblock : p.blockOf j = p.blockOf i) :
    (p.inst j).pos ≤ (p.inst i).pos := by
  obtain ⟨t, ht, -, honly⟩ := h.linked.exists_terminator (h.linked.blockOf_lt hi)
  have hat := h.linked.position_iff.2 ⟨hi, rfl, rfl⟩
  obtain rfl := (honly i (List.mem_of_getElem? hat)).1 hterm
  rw [Block.terminator, List.getLast?_eq_getElem?] at ht
  have hlast := (h.linked.position_iff.1 ht).2.2
  have hlt := (List.getElem?_eq_some_iff.1 (h.linked.position_iff.2 ⟨hj, hblock, rfl⟩)).1
  omega

theorem mem_preds_iff (h : p.Finished) {a b : Nat} :
    a ∈ (p.block b).preds ↔ a < p.blocks.size ∧ b ∈ (p.block a).succs :=
  h.linked.mem_preds_iff.trans (iff_and_self.2 fun hmem => (h.linked.succ_spec hmem).1)

end Finished

/-- Every instruction stands in a block of its own function. -/
def Placed (p : Program) : Prop := ∀ i < p.insts.size, (p.block (p.blockOf i)).func = p.funcOf i

instance (p : Program) : Decidable p.Placed :=
  inferInstanceAs (Decidable (∀ i < p.insts.size, (p.block (p.blockOf i)).func = p.funcOf i))

theorem mem_funcInsts_iff {p : Program} (hp : p.WellFormed) {f : FuncId} {i : Nat} :
    i ∈ p.funcInsts f ↔ i < p.insts.size ∧ (p.block (p.blockOf i)).func = f :=
  hp.arranged.mem_funcInsts_iff

theorem Placed.mem_funcInsts_iff {p : Program} (h : p.Placed) (hp : p.WellFormed)
    {f : FuncId} {i : Nat} :
    i ∈ p.funcInsts f ↔ i < p.insts.size ∧ p.funcOf i = f := by
  rw [Program.mem_funcInsts_iff hp]
  exact and_congr_right fun hi => by rw [h i hi]

end Program

end DataRace
