import DataRace.Proofs.Program.Linking
import Mathlib.Data.List.Nodup
import Mathlib.Data.List.Perm.Subperm
import Mathlib.Tactic.ByContra

/-!
# DataRace.Proofs.Program.Linked

What finishing makes of the tables, whatever calls were made before.

* `Builder.Made` are the builders that calls lead to.  Handles may be passed in
  that were not handed out; a call that looks one up off its table is broken off
  and leads nowhere;
* `Made.arranged`, `Made.sealed`: their blocks list their instructions, and a
  terminator has nothing behind it;
* `Program.Linked` — the tables, the edges between blocks and the users of values
  tell the same;
* `Made.linked`: a program that is finished is linked.
-/

namespace DataRace

/-! ## what each call does -/

namespace Build

theorem const_program (c : Int64) (b : Builder) : (const c b).2.program = b.program ∨
    (const c b).2.program =
      { b.program with values := b.program.values.push ⟨.const c, []⟩ } := by
  unfold const sharedValue
  split
  · exact .inl rfl
  · exact .inr rfl

theorem null_program (b : Builder) : (null b).2.program = b.program ∨
    (null b).2.program = { b.program with values := b.program.values.push ⟨.null, []⟩ } := by
  unfold null sharedValue
  split
  · exact .inl rfl
  · exact .inr rfl

theorem pure_apply {α : Type} (a : α) (b : Builder) : StateT.pure (m := Id) a b = (a, b) := rfl

/-- Adding one value for each index puts them at the end of the table. -/
theorem mapM_newValue (d : Nat → Definition) (ks : List Nat) (b : Builder) :
    (ks.mapM fun k => newValue (d k)) b =
      ((List.range ks.length).map (b.program.values.size + ·),
        { b with program := { b.program with
          values := b.program.values ++ (ks.map fun k => ⟨d k, []⟩).toArray } }) := by
  induction ks generalizing b with
  | nil => simp [pure, pure_apply]
  | cons k ks ih =>
    rw [List.mapM_cons]
    change (let r := (ks.mapM fun k => newValue (d k)) (newValue (d k) b).2
      ((newValue (d k) b).1 :: r.1, r.2)) = _
    rw [ih]
    simp only [newValue, Array.size_push, List.length_cons, List.range_succ_eq_map, List.map_cons,
      List.map_map, Nat.add_zero, Prod.mk.injEq, List.cons.injEq, true_and]
    constructor
    · refine List.map_congr_left fun j _ => ?_
      simp only [Function.comp_apply]
      omega
    · simp

theorem declare_program (name : String) (n : Nat) (b : Builder) :
    (declare name n b).2.program = b.program ∨
      (declare name n b).2.program = b.program.declared name n := by
  cases hknown : b.program.funcNamed? name with
  | some f =>
    refine .inl ?_
    simp [declare, get, getThe, MonadStateOf.get, StateT.get, bind, StateT.bind, hknown, pure,
      pure_apply]
  | none =>
    refine .inr ?_
    simp [declare, get, getThe, MonadStateOf.get, StateT.get, bind, StateT.bind, hknown, pure,
      pure_apply, modify, modifyGet, MonadStateOf.modifyGet, StateT.modifyGet, mapM_newValue,
      newValue, Program.declared]
    apply Array.ext'
    simp

theorem beginBody_program (f : FuncId) (b : Builder) :
    (beginBody f b).2.program = b.program.withBlock f := by
  cases hd : (b.program.func f).isDeclaration <;>
    simp [beginBody, get, getThe, MonadStateOf.get, StateT.get, bind, StateT.bind, hd, pure,
      pure_apply, modify, modifyGet, MonadStateOf.modifyGet, StateT.modifyGet, newBlock,
      Builder.blame, Program.withBlock]

theorem append_program (c : Cursor) (op : Operation) (b : Builder) :
    (append c op b).2.program = b.program.appended c op := by
  cases hr : op.hasResult <;> cases hc : isClosed b.program c.block <;>
    simp [append, get, getThe, MonadStateOf.get, StateT.get, bind, StateT.bind, hr, hc, pure,
      pure_apply, modify, modifyGet, MonadStateOf.modifyGet, StateT.modifyGet, Functor.map,
      StateT.map, newValue, Program.appended, Builder.blame, Program.block]

theorem const_defect (c : Int64) (b : Builder) : (const c b).2.defect = b.defect := by
  unfold const sharedValue
  split <;> rfl

theorem null_defect (b : Builder) : (null b).2.defect = b.defect := by
  unfold null sharedValue
  split <;> rfl

theorem declare_defect (name : String) (n : Nat) (b : Builder) :
    (declare name n b).2.defect = b.defect := by
  cases hknown : b.program.funcNamed? name <;>
    simp [declare, get, getThe, MonadStateOf.get, StateT.get, bind, StateT.bind, hknown, pure,
      pure_apply, modify, modifyGet, MonadStateOf.modifyGet, StateT.modifyGet, mapM_newValue,
      newValue]

theorem beginBody_defect {f : FuncId} {b : Builder} (h : (beginBody f b).2.defect = none) :
    b.defect = none := by
  cases hd : (b.program.func f).isDeclaration <;>
    simp_all [beginBody, get, getThe, MonadStateOf.get, StateT.get, bind, StateT.bind, pure,
      pure_apply, modify, modifyGet, MonadStateOf.modifyGet, StateT.modifyGet, newBlock,
      Builder.blame]

theorem append_defect {c : Cursor} {op : Operation} {b : Builder}
    (h : (append c op b).2.defect = none) :
    b.defect = none ∧ isClosed b.program c.block = false := by
  cases hr : op.hasResult <;> cases hc : isClosed b.program c.block <;>
    simp_all [append, get, getThe, MonadStateOf.get, StateT.get, bind, StateT.bind, pure,
      pure_apply, modify, modifyGet, MonadStateOf.modifyGet, StateT.modifyGet, Functor.map,
      StateT.map, newValue, Builder.blame]

end Build

/-- A phi with one more input; any other instruction is left as it is. -/
def Instruction.withInput (val : ValueId) (source : BlockId) (x : Instruction) : Instruction :=
  match x.op with
  | .phi ins => { x with op := .phi (ins ++ [(val, source)]) }
  | _ => x

namespace Instruction

variable (val : ValueId) (source : BlockId) (x : Instruction)

theorem withInput_place : (x.withInput val source).func = x.func ∧
    (x.withInput val source).block = x.block ∧ (x.withInput val source).pos = x.pos ∧
    (x.withInput val source).result = x.result := by
  unfold withInput
  split <;> exact ⟨rfl, rfl, rfl, rfl⟩

theorem isTerminator_withInput : (x.withInput val source).op.isTerminator = x.op.isTerminator := by
  unfold withInput
  split
  · next hop => rw [hop]; rfl
  · rfl

/-- No operand is lost. -/
theorem operands_subset_withInput : x.op.operands ⊆ (x.withInput val source).op.operands := by
  unfold withInput
  split
  · next hop =>
    rw [hop]
    exact List.map_subset _ (List.subset_append_left ..)
  · exact List.Subset.refl _

/-- A phi reads the added input. -/
theorem mem_operands_withInput (h : x.op.isPhi = true) :
    val ∈ (x.withInput val source).op.operands := by
  unfold withInput
  split
  · simp [Operation.operands]
  · next hop => cases hx : x.op <;> simp_all [Operation.isPhi]

theorem hasResult_withInput : (x.withInput val source).op.hasResult = x.op.hasResult := by
  unfold withInput
  split
  · next hop => rw [hop]; rfl
  · rfl

end Instruction

namespace Program

/-- The tables after an input is added to an instruction. -/
def withInput (p : Program) (i : InstId) (val : ValueId) (source : BlockId) : Program :=
  { p with insts := p.insts.modify i (·.withInput val source) }

theorem inst_withInput {p : Program} {val : ValueId} {source : BlockId} (i j : Nat) :
    (p.withInput i val source).inst j =
      if i = j ∧ i < p.insts.size then (p.inst j).withInput val source else p.inst j :=
  Table.getD_modify ..

theorem size_insts_withInput {p : Program} {i : InstId} {val : ValueId} {source : BlockId} :
    (p.withInput i val source).insts.size = p.insts.size := Array.size_modify ..

end Program

namespace Builder

/-- Adding an input changes the one phi. -/
theorem addIncoming_eq_ok {b b' : Builder} {phi val : ValueId} {source : BlockId}
    (h : b.addIncoming phi val source = .ok b') : ∃ i, b.program.defInst phi = some i ∧
      b' = { b with program := b.program.withInput i val source } := by
  unfold addIncoming at h
  split at h
  · cases h
  · next i hi =>
    cases h
    exact ⟨i, hi, rfl⟩

/-- The builders that calls lead to, whatever handles are passed in.  A call that looks up a handle
off its table is broken off. -/
inductive Made : Builder → Prop where
  | start : Made {}
  | const {b} (c : Int64) : Made b → Made (Build.const c b).2
  | null {b} : Made b → Made (Build.null b).2
  | addGlobal {b} (name : String) (fields : Nat) (loc : Option Location) :
      Made b → Made (Build.addGlobal name fields loc b).2
  | declare {b} (name : String) (params : Nat) : Made b → Made (Build.declare name params b).2
  | beginBody {b} (f : FuncId) : f < b.program.funcs.size → Made b → Made (Build.beginBody f b).2
  | newBlock {b} (f : FuncId) : f < b.program.funcs.size → Made b → Made (Build.newBlock f b).2
  | append {b} (c : Cursor) (op : Operation) :
      c.block < b.program.blocks.size → Made b → Made (Build.append c op b).2
  | addIncoming {b b'} (phi val : ValueId) (source : BlockId) :
      b.addIncoming phi val source = .ok b' → Made b → Made b'

/-! ## what every call keeps -/

namespace Made

/-- What holds of the empty tables and is kept by each change of the tables holds of the tables of
every builder; new values and globals change nothing that the property is about. -/
theorem program_induction {P : Program → Prop} (hempty : P .empty)
    (hvalues : ∀ (p : Program) values globals, P p → P { p with values, globals })
    (hdeclared : ∀ p name n, P p → P (p.declared name n))
    (hblock : ∀ p f, f < p.funcs.size → P p → P (p.withBlock f))
    (happended : ∀ p c op, c.block < p.blocks.size → P p → P (p.appended c op))
    (hinput : ∀ p i val source, P p → P (p.withInput i val source))
    {b : Builder} (h : b.Made) : P b.program := by
  induction h with
  | start => exact hempty
  | @const b c _ ih =>
    obtain heq | heq := Build.const_program c b
    · exact heq ▸ ih
    · exact heq ▸ hvalues _ _ _ ih
  | @null b _ ih =>
    obtain heq | heq := Build.null_program b
    · exact heq ▸ ih
    · exact heq ▸ hvalues _ _ _ ih
  | @addGlobal b name fields loc _ ih => exact hvalues b.program _ _ ih
  | @declare b name params _ ih =>
    obtain heq | heq := Build.declare_program name params b
    · exact heq ▸ ih
    · exact heq ▸ hdeclared _ name params ih
  | @beginBody b f hf _ ih => exact Build.beginBody_program f b ▸ hblock _ f hf ih
  | @newBlock b f hf _ ih => exact hblock _ f hf ih
  | @append b c op hc _ ih => exact Build.append_program c op b ▸ happended _ c op hc ih
  | @addIncoming b b' phi val source hadd _ ih =>
    obtain ⟨i, -, rfl⟩ := addIncoming_eq_ok hadd
    exact hinput _ i val source ih

theorem arranged {b : Builder} (h : b.Made) : b.program.Arranged := by
  refine h.program_induction .empty
    (fun p _ _ hp => ⟨hp.position_iff, hp.blockOf_lt, hp.mem_blocks_iff⟩)
    (fun p name n hp => hp.declared name n) (fun p f hf hp => hp.withBlock hf)
    (fun p c op hc hp => hp.appended op hc) (fun p i val source hp => hp.modifyInst fun x => ?_)
  obtain ⟨-, hblock, hpos, -⟩ := x.withInput_place val source
  exact ⟨hblock, hpos⟩

theorem unlinked {b : Builder} (h : b.Made) : b.program.Unlinked := by
  induction h with
  | start => exact .empty
  | @const b c _ ih =>
    obtain heq | heq := Build.const_program c b
    · exact heq ▸ ih
    · exact heq ▸ ih.pushValue _
  | @null b _ ih =>
    obtain heq | heq := Build.null_program b
    · exact heq ▸ ih
    · exact heq ▸ ih.pushValue _
  | @addGlobal b name fields loc _ ih =>
    exact ⟨ih.preds, (ih.pushValue (.global b.program.globals.size)).users⟩
  | @declare b name params _ ih =>
    obtain heq | heq := Build.declare_program name params b
    · exact heq ▸ ih
    · exact heq ▸ ih.declared name params
  | @beginBody b f hf _ ih => exact Build.beginBody_program f b ▸ ih.withBlock f
  | @newBlock b f hf _ ih => exact ih.withBlock f
  | @append b c op hc _ ih => exact Build.append_program c op b ▸ ih.appended c op
  | @addIncoming b b' phi val source hadd _ ih =>
    obtain ⟨i, -, rfl⟩ := addIncoming_eq_ok hadd
    exact ⟨ih.preds, ih.users⟩

/-- A function lists a block once. -/
theorem nodup_blocks {b : Builder} (h : b.Made) {f : FuncId} : (b.program.func f).blocks.Nodup := by
  have hall := h.program_induction (P := fun p => p.Arranged ∧ ∀ f, (p.func f).blocks.Nodup)
    ⟨.empty, fun f => ?_⟩
    (fun p _ _ hp => ⟨⟨hp.1.position_iff, hp.1.blockOf_lt, hp.1.mem_blocks_iff⟩, hp.2⟩)
    (fun p name n hp => ⟨hp.1.declared name n, fun f => ?_⟩)
    (fun p g hg hp => ⟨hp.1.withBlock hg, fun f => ?_⟩)
    (fun p c op hc hp => ⟨hp.1.appended op hc, hp.2⟩)
    (fun p i val source hp => ⟨hp.1.modifyInst fun x => ?_, hp.2⟩)
  · exact hall.2 f
  · rw [Program.func_of_size_le (Nat.zero_le f)]
    exact List.nodup_nil
  · rw [Program.blocks_declared]
    exact hp.2 f
  · rw [Program.func_withBlock]
    split
    · have hnew : p.blocks.size ∉ (p.func f).blocks :=
        fun hmem => Nat.lt_irrefl _ (hp.1.mem_blocks_iff.1 hmem).1
      exact List.nodup_append.2 ⟨hp.2 f, List.pairwise_singleton .., fun a ha c hc heq =>
        hnew (List.mem_singleton.1 hc ▸ heq ▸ ha)⟩
    · exact hp.2 f
  · obtain ⟨-, hblock, hpos, -⟩ := x.withInput_place val source
    exact ⟨hblock, hpos⟩

/-- As long as no defect is noticed, nothing stands behind a terminator. -/
theorem sealed {b : Builder} (h : b.Made) (hd : b.defect = none) : Sealed b.program := by
  induction h with
  | start => exact fun i hi => absurd hi (Nat.not_lt_zero i)
  | @const b c _ ih =>
    rw [Build.const_defect] at hd
    obtain heq | heq := Build.const_program c b
    · rw [heq]
      exact ih hd
    · exact (ih hd).congr (by rw [heq]) fun _ _ => by rw [heq]; rfl
  | @null b _ ih =>
    rw [Build.null_defect] at hd
    obtain heq | heq := Build.null_program b
    · rw [heq]
      exact ih hd
    · exact (ih hd).congr (by rw [heq]) fun _ _ => by rw [heq]; rfl
  | @addGlobal b name fields loc _ ih => exact (ih hd).congr rfl fun _ _ => rfl
  | @declare b name params _ ih =>
    rw [Build.declare_defect] at hd
    obtain heq | heq := Build.declare_program name params b
    · rw [heq]
      exact ih hd
    · exact (ih hd).congr (by rw [heq]; rfl) fun _ _ => by rw [heq]; rfl
  | @beginBody b f hf hb ih =>
    rw [Build.beginBody_program]
    exact (ih (Build.beginBody_defect hd)).withBlock hb.arranged f
  | @newBlock b f hf hb ih => exact (ih hd).withBlock hb.arranged f
  | @append b c op hblock hb ih =>
    obtain ⟨hd, hopen⟩ := Build.append_defect hd
    rw [Build.append_program]
    exact (ih hd).appended hb.arranged hblock hopen
  | @addIncoming b b' phi val source hadd hb ih =>
    obtain ⟨i, -, rfl⟩ := addIncoming_eq_ok hadd
    refine (ih hd).modifyInst fun x => ?_
    obtain ⟨-, hblock, hpos, -⟩ := x.withInput_place val source
    exact ⟨hblock, hpos, fun h => x.isTerminator_withInput val source ▸ h⟩

end Made

/-! ## linking -/

variable {p : Program}

theorem arranged_link (h : p.Arranged) : (link p).Arranged where
  position_iff {b k i} := by
    rw [link_block_insts]
    exact h.position_iff
  blockOf_lt hi := size_link_blocks.symm ▸ h.blockOf_lt hi
  mem_blocks_iff {b f} := by
    rw [link_block_func, size_link_blocks]
    exact h.mem_blocks_iff

/-- What finishing checks, and what it answers. -/
theorem finish_eq_ok_iff {b : Builder} : b.finish = .ok p ↔ b.defect = none ∧
    (∀ c < b.program.blocks.size, blockDefect b.program c = none) ∧
    (∀ f < b.program.funcs.size, functionDefect b.program f = none) ∧ p = link b.program := by
  have htable : tableDefect b.program = none ↔
      (∀ c < b.program.blocks.size, blockDefect b.program c = none) ∧
        ∀ f < b.program.funcs.size, functionDefect b.program f = none := by
    rw [tableDefect, Option.orElse_eq_orElse, Option.orElse_eq_or, Option.or_eq_none_iff,
      List.findSome?_eq_none_iff, List.findSome?_eq_none_iff]
    simp only [Program.funcIds, List.mem_range]
  rw [finish, ← and_assoc, ← and_assoc, and_assoc (a := b.defect = none), ← htable]
  cases hd : b.defect with
  | some d => simp
  | none =>
    cases ht : tableDefect b.program with
    | some d => simp
    | none => simp [eq_comm]

/-- A block without a defect has one way out, its end. -/
theorem blockDefect_eq_none_iff {b : BlockId} : blockDefect p b = none ↔
    ∃ t, (p.block b).terminator = some t ∧ (p.op t).isTerminator = true ∧
      ∀ s ∈ (p.op t).successors, (p.block s).func = (p.block b).func := by
  unfold blockDefect
  cases ht : (p.block b).terminator with
  | none => simp [ht]
  | some t => cases hterm : (p.op t).isTerminator <;> simp [ht, hterm]

/-- A function without a defect returns in one block at most. -/
theorem eq_of_functionDefect {f : FuncId} (h : functionDefect p f = none) {a b : BlockId}
    (ha : a ∈ (p.func f).blocks) (hra : (p.blockReturn a).isSome)
    (hb : b ∈ (p.func f).blocks) (hrb : (p.blockReturn b).isSome) : a = b := by
  by_contra hne
  have hcount : (p.func f).blocks.countP (fun b => (p.blockReturn b).isSome) ≤ 1 := by
    unfold functionDefect at h
    dsimp only at h
    split at h
    · cases h
    · omega
  have hsub : [a, b].Subperm ((p.func f).blocks.filter fun b => (p.blockReturn b).isSome) := by
    refine List.subperm_of_subset (by simpa using hne) fun c hc => ?_
    obtain rfl | hc := List.mem_cons.1 hc
    · exact List.mem_filter.2 ⟨ha, hra⟩
    · obtain rfl := List.mem_singleton.1 hc
      exact List.mem_filter.2 ⟨hb, hrb⟩
  have hlen := hsub.length_le
  rw [← List.countP_eq_length_filter] at hlen
  simp only [List.length_cons, List.length_nil] at hlen
  omega

end Builder

theorem Operation.isTerminator_of_isReturn {op : Operation} (h : op.isReturn = true) :
    op.isTerminator = true := by
  cases op <;> first | rfl | cases h

/-! ## linked programs -/

namespace Program

/-- The handles that linking looks up are in the tables. -/
structure Inside (p : Program) : Prop where
  operand_lt : ∀ {i v : Nat}, v ∈ (p.op i).operands → v < p.values.size
  successor_lt : ∀ {i b : Nat}, b ∈ (p.op i).successors → b < p.blocks.size

/-- The tables, the edges between blocks and the users of values tell the same. -/
structure Linked (p : Program) : Prop where
  /-- An instruction stands in its block at its position, and nowhere else. -/
  position_iff : ∀ {b k i : Nat}, (p.block b).insts[k]? = some i ↔
    i < p.insts.size ∧ p.blockOf i = b ∧ (p.inst i).pos = k
  blockOf_lt : ∀ {i : Nat}, i < p.insts.size → p.blockOf i < p.blocks.size
  /-- A block belongs to the function that lists it, which lists it once. -/
  mem_blocks_iff : ∀ {b f : Nat}, b ∈ (p.func f).blocks ↔ b < p.blocks.size ∧ (p.block b).func = f
  nodup_blocks : ∀ {f : Nat}, (p.func f).blocks.Nodup
  /-- A block is not empty; its last instruction is its terminator, the only one. -/
  exists_terminator : ∀ {b : Nat}, b < p.blocks.size → ∃ t, (p.block b).terminator = some t ∧
    (p.block b).succs = (p.op t).successors ∧
    ∀ i ∈ (p.block b).insts, (p.op i).isTerminator = true ↔ i = t
  nodup_succs : ∀ {b : Nat}, (p.block b).succs.Nodup
  /-- Control stays in the function. -/
  mem_blocks_of_succ : ∀ {b c : Nat}, c ∈ (p.block b).succs → c ∈ (p.func (p.block b).func).blocks
  mem_preds_iff : ∀ {a b : Nat}, a ∈ (p.block b).preds ↔ b ∈ (p.block a).succs
  nodup_preds : ∀ {b : Nat}, (p.block b).preds.Nodup
  /-- A function has at most one return. -/
  eq_of_isReturn : ∀ {f i j : Nat}, i ∈ p.funcInsts f → (p.op i).isReturn = true →
    j ∈ p.funcInsts f → (p.op j).isReturn = true → i = j
  users_ascending : ∀ {v : Nat}, (p.users v).Pairwise (· < ·)
  mem_users_iff : ∀ {v i : Nat}, i ∈ p.users v ↔ i < p.insts.size ∧ v ∈ (p.op i).operands

namespace Linked

variable {p : Program}

theorem arranged (h : p.Linked) : p.Arranged := ⟨h.position_iff, h.blockOf_lt, h.mem_blocks_iff⟩

theorem succ_spec (h : p.Linked) {b c : Nat} (hc : c ∈ (p.block b).succs) :
    b < p.blocks.size ∧ c < p.blocks.size ∧ (p.block c).func = (p.block b).func := by
  have hb : b < p.blocks.size := by
    by_contra hle
    rw [block_of_size_le (Nat.le_of_not_lt hle)] at hc
    cases hc
  exact ⟨hb, h.mem_blocks_iff.1 (h.mem_blocks_of_succ hc)⟩

/-- A block lists an instruction once. -/
theorem nodup_blockInsts (h : p.Linked) {b : Nat} : (p.block b).insts.Nodup := by
  rw [List.nodup_iff_getElem?_ne_getElem?]
  intro j k hjk hk heq
  have hi : (p.block b).insts[k]? = some (p.block b).insts[k] := List.getElem?_eq_getElem hk
  have hj := (h.position_iff.1 (heq.trans hi)).2.2
  have hk := (h.position_iff.1 hi).2.2
  omega

/-- The functions list an instruction once. -/
theorem nodup_listing (h : p.Linked) : (p.funcIds.flatMap p.funcInsts).Nodup := by
  have hfunc (f : FuncId) : (p.funcInsts f).Nodup := by
    refine List.nodup_flatMap.2 ⟨fun b _ => h.nodup_blockInsts, ?_⟩
    refine h.nodup_blocks.imp_of_mem fun _ _ hne i hi hi' => hne ?_
    obtain ⟨j, hj⟩ := List.mem_iff_getElem?.1 hi
    obtain ⟨k, hk⟩ := List.mem_iff_getElem?.1 hi'
    exact (h.position_iff.1 hj).2.1.symm.trans (h.position_iff.1 hk).2.1
  refine List.nodup_flatMap.2 ⟨fun f _ => hfunc f, ?_⟩
  refine List.nodup_range.imp_of_mem fun _ _ hne i hi hi' => hne ?_
  exact (h.arranged.mem_funcInsts_iff.1 hi).2.symm.trans (h.arranged.mem_funcInsts_iff.1 hi').2

theorem length_listing_le (h : p.Linked) :
    (p.funcIds.flatMap p.funcInsts).length ≤ p.insts.size := by
  have hsub : (p.funcIds.flatMap p.funcInsts).Subperm p.instIds := by
    refine List.subperm_of_subset h.nodup_listing fun i hi => ?_
    obtain ⟨f, -, hf⟩ := List.mem_flatMap.1 hi
    exact List.mem_range.2 (h.arranged.mem_funcInsts_iff.1 hf).1
  exact Nat.le_trans hsub.length_le (Nat.le_of_eq List.length_range)

end Linked

end Program

namespace Builder

/-- What a block may continue in, where no block has a defect. -/
theorem mem_successorsOf (hin : p.Inside) (hblocks : ∀ c < p.blocks.size, blockDefect p c = none)
    {b c : BlockId} (hc : c ∈ successorsOf p b) :
    b < p.blocks.size ∧ c < p.blocks.size ∧ (p.block c).func = (p.block b).func := by
  have hb : b < p.blocks.size := by
    by_contra hle
    rw [successorsOf, Program.block_of_size_le (Nat.le_of_not_lt hle)] at hc
    cases hc
  obtain ⟨t, ht, -, hstay⟩ := blockDefect_eq_none_iff.1 (hblocks b hb)
  rw [successorsOf, ht] at hc
  exact ⟨hb, hin.successor_lt hc, hstay c hc⟩

/-- Where a block ends with its only terminator, its return is the instruction that returns. -/
theorem blockReturn_eq (hp : p.Arranged) (hseal : Sealed p) {i : InstId} (hi : i < p.insts.size)
    (hret : (p.op i).isReturn = true) : p.blockReturn (p.blockOf i) = some i := by
  rw [Program.blockReturn, hseal.terminator_eq hp hi (Operation.isTerminator_of_isReturn hret),
    Option.filter_some, if_pos hret]

/-- A program that is finished is linked, whatever calls were made before, if linking looks up no
handle off its table. -/
theorem Made.linked {b : Builder} (h : b.Made) (hin : b.program.Inside) (hfin : b.finish = .ok p) :
    p.Linked := by
  obtain ⟨hd, hblocks, hfuncs, rfl⟩ := finish_eq_ok_iff.1 hfin
  have harr := h.arranged
  have hseal := h.sealed hd
  have hlink := arranged_link harr
  constructor
  case position_iff => exact hlink.position_iff
  case blockOf_lt => exact hlink.blockOf_lt
  case mem_blocks_iff => exact hlink.mem_blocks_iff
  case nodup_blocks => exact h.nodup_blocks
  case exists_terminator =>
    intro c hc
    rw [size_link_blocks] at hc
    obtain ⟨t, ht, hterm, -⟩ := blockDefect_eq_none_iff.1 (hblocks c hc)
    refine ⟨t, by rw [Block.terminator, link_block_insts]; exact ht, ?_, fun i hi => ?_⟩
    · rw [link_block_succs, successorsOf, ht]
      rfl
    · rw [link_block_insts] at hi
      obtain ⟨k, hk⟩ := List.mem_iff_getElem?.1 hi
      obtain ⟨hlt, hblock, -⟩ := harr.position_iff.1 hk
      constructor
      · intro hi
        have hlast := hseal.terminator_eq harr hlt hi
        rw [hblock, ht, Option.some.injEq] at hlast
        exact hlast.symm
      · rintro rfl
        exact hterm
  case nodup_succs =>
    intro c
    rw [link_block_succs]
    exact nodup_successorsOf c
  case mem_blocks_of_succ =>
    intro a c hc
    rw [link_block_succs] at hc
    obtain ⟨-, hlt, hfunc⟩ := mem_successorsOf hin hblocks hc
    rw [link_block_func]
    exact harr.mem_blocks_iff.2 ⟨hlt, hfunc⟩
  case mem_preds_iff =>
    intro a c
    rw [link_block_succs]
    by_cases hc : c < b.program.blocks.size
    · rw [preds_link h.unlinked hc, List.mem_filter, List.mem_range, List.contains_iff_mem]
      exact and_iff_right_of_imp fun hmem => (mem_successorsOf hin hblocks hmem).1
    · rw [Program.block_of_size_le (by rw [size_link_blocks]; exact Nat.le_of_not_lt hc)]
      exact ⟨fun hmem => (by cases hmem),
        fun hmem => absurd (mem_successorsOf hin hblocks hmem).2.1 hc⟩
  case nodup_preds =>
    intro c
    by_cases hc : c < b.program.blocks.size
    · rw [preds_link h.unlinked hc]
      exact List.nodup_range.filter _
    · rw [Program.block_of_size_le (by rw [size_link_blocks]; exact Nat.le_of_not_lt hc)]
      exact List.nodup_nil
  case eq_of_isReturn =>
    intro f i j hi hri hj hrj
    obtain ⟨hi, hfi⟩ := hlink.mem_funcInsts_iff.1 hi
    obtain ⟨hj, hfj⟩ := hlink.mem_funcInsts_iff.1 hj
    have hmem {k : Nat} (hk : k < b.program.insts.size)
        (hf : ((link b.program).block ((link b.program).blockOf k)).func = f) :
        b.program.blockOf k ∈ (b.program.func f).blocks := by
      rw [link_block_func] at hf
      exact harr.mem_blocks_iff.2 ⟨harr.blockOf_lt hk, hf⟩
    have hreturn {k : Nat} := blockReturn_eq harr hseal (i := k)
    have hf : f < b.program.funcs.size := by
      by_contra hle
      have hnone := hmem hi hfi
      rw [Program.func_of_size_le (Nat.le_of_not_lt hle)] at hnone
      cases hnone
    have hsame := eq_of_functionDefect (hfuncs f hf) (hmem hi hfi) (by rw [hreturn hi hri]; rfl)
      (hmem hj hfj) (by rw [hreturn hj hrj]; rfl)
    exact Option.some.inj ((hreturn hi hri).symm.trans ((congrArg _ hsame).trans (hreturn hj hrj)))
  case users_ascending =>
    intro v
    by_cases hv : v < b.program.values.size
    · rw [users_link h.unlinked hv]
      exact List.pairwise_lt_range.filter _
    · rw [users_link_of_size_le (Nat.le_of_not_lt hv)]
      exact .nil
  case mem_users_iff =>
    intro v i
    by_cases hv : v < b.program.values.size
    · rw [users_link h.unlinked hv, List.mem_filter, List.contains_iff_mem, Program.instIds,
        List.mem_range]
      rfl
    · rw [users_link_of_size_le (Nat.le_of_not_lt hv)]
      exact ⟨fun hmem => (by cases hmem), fun hmem => absurd (hin.operand_lt hmem.2) hv⟩

end Builder

end DataRace
