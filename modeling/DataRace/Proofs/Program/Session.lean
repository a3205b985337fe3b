import DataRace.Proofs.Program.Finished
import DataRace.Proofs.Program.Script
import DataRace.Proofs.Success

/-!
# DataRace.Proofs.Program.Session

Building as a sequence of calls.

A `Session` is a builder together with the place where the body under
construction goes on.  `Session.step` makes one call, with whatever handles the
caller passes in; a call that looks one up off its table is broken off, and so
is the last one, which links the program.

* `Session.build_linked` — whatever is built in the end is linked, and an input
  added to a phi makes the phi a user of the value;
* `Session.placed_iff` — its instructions stand in blocks of their own functions
  if and only if each was appended at a block of the function under construction.
-/

namespace DataRace

/-! ## calls -/

/-- A program under construction, and the body that is built. -/
structure Session where
  builder : Builder := {}
  /-- Where the next instruction goes, once a body was begun. -/
  cursor : Option Cursor := none

namespace Session

/-- A call of the building interface. -/
inductive Call where
  | const (c : Int64)
  | null
  | global (name : String) (fields : Nat) (loc : Option Location)
  | declare (name : String) (params : Nat)
  /-- Begin the body of a function, which the calls below then go to. -/
  | body (f : FuncId)
  | newBlock
  | positionAt (b : BlockId)
  | locate (l : Location)
  | append (op : Operation)
  /-- Append a call of a function by its name, which is declared unless it is known. -/
  | callNamed (name : String) (args : List ValueId)
  | addIncoming (phi val : ValueId) (source : BlockId)

/-- Whether the call appends an instruction. -/
def Call.appends : Call → Bool
  | append _ | callNamed .. => true
  | _ => false

/-- The tables so far. -/
def program (s : Session) : Program := s.builder.program

/-- Go on where the body under construction is. -/
def inBody (s : Session) (next : Cursor → Except Error Session) : Except Error Session :=
  match s.cursor with
  | some c => next c
  | none => .error (.notInitialized "function body")

/-- Append an instruction at the cursor. -/
def appendAt (b : Builder) (c : Cursor) (op : Operation) : Except Error Session :=
  if c.block < b.program.blocks.size then .ok ⟨(Build.append c op b).2, some c⟩
  else .error .outOfRange

/-- Make a call. -/
def step (s : Session) : Call → Except Error Session
  | .const c => .ok { s with builder := (Build.const c s.builder).2 }
  | .null => .ok { s with builder := (Build.null s.builder).2 }
  | .global name fields loc =>
      .ok { s with builder := (Build.addGlobal name fields loc s.builder).2 }
  | .declare name params => .ok { s with builder := (Build.declare name params s.builder).2 }
  | .body f =>
    if f < s.program.funcs.size then
      .ok ⟨(Build.beginBody f s.builder).2, some (Build.beginBody f s.builder).1⟩
    else
      .error .outOfRange
  | .newBlock => s.inBody fun c =>
    if c.func < s.program.funcs.size then
      .ok { s with builder := (Build.newBlock c.func s.builder).2 }
    else
      .error .outOfRange
  | .positionAt b => s.inBody fun c => .ok { s with cursor := some { c with block := b } }
  | .locate l => s.inBody fun c => .ok { s with cursor := some { c with loc := some l } }
  | .append op => s.inBody fun c => appendAt s.builder c op
  | .callNamed name args => s.inBody fun c =>
    let declared := Build.declare name args.length s.builder
    appendAt declared.2 c (.call (.direct declared.1) args)
  | .addIncoming phi val source =>
    if phi < s.program.values.size then do
      return { s with builder := ← s.builder.addIncoming phi val source }
    else
      .error .outOfRange

/-- Make calls one after the other. -/
def run (s : Session) (calls : List Call) : Except Error Session := calls.foldlM step s

/-- Whether the operands and the successors of all instructions are in the tables. -/
def refersInside (p : Program) : Bool :=
  p.instIds.all fun i => (p.op i).operands.all (· < p.values.size) &&
    (p.op i).successors.all (· < p.blocks.size)

/-- Finish the program; linking looks up every operand and every successor. -/
def finish (s : Session) : Except Error Program := do
  let p ← s.builder.finish
  if refersInside s.program then return p else throw .outOfRange

/-- The program that calls build from nothing. -/
def build (calls : List Call) : Except Error Program := run {} calls >>= finish

end Session

/-! ## what a call keeps -/

/-- Instructions stay where they are and lose no operand, and blocks stay in their functions. -/
structure Program.Keeps (p q : Program) : Prop where
  size_insts_le : p.insts.size ≤ q.insts.size
  size_blocks_le : p.blocks.size ≤ q.blocks.size
  block_func : ∀ {b : Nat}, b < p.blocks.size → (q.block b).func = (p.block b).func
  place : ∀ {i : Nat}, i < p.insts.size → q.funcOf i = p.funcOf i ∧ q.blockOf i = p.blockOf i
  operands : ∀ {i : Nat}, i < p.insts.size → (p.op i).operands ⊆ (q.op i).operands

namespace Program.Keeps

variable {p q r : Program}

theorem refl (p : Program) : p.Keeps p :=
  ⟨Nat.le_refl _, Nat.le_refl _, fun _ => rfl, fun _ => ⟨rfl, rfl⟩, fun _ => List.Subset.refl _⟩

theorem trans (h : p.Keeps q) (h' : q.Keeps r) : p.Keeps r where
  size_insts_le := Nat.le_trans h.size_insts_le h'.size_insts_le
  size_blocks_le := Nat.le_trans h.size_blocks_le h'.size_blocks_le
  block_func hb := (h'.block_func (Nat.lt_of_lt_of_le hb h.size_blocks_le)).trans (h.block_func hb)
  place hi := by
    have hlater := h'.place (Nat.lt_of_lt_of_le hi h.size_insts_le)
    exact ⟨hlater.1.trans (h.place hi).1, hlater.2.trans (h.place hi).2⟩
  operands hi :=
    List.Subset.trans (h.operands hi) (h'.operands (Nat.lt_of_lt_of_le hi h.size_insts_le))

/-- Only the tables of instructions and blocks matter. -/
theorem of_eq (hinsts : q.insts = p.insts) (hblocks : q.blocks = p.blocks) : p.Keeps q := by
  have hinst (i : Nat) : q.inst i = p.inst i := by rw [inst, hinsts]; rfl
  constructor
  case size_insts_le => exact Nat.le_of_eq (congrArg _ hinsts.symm)
  case size_blocks_le => exact Nat.le_of_eq (congrArg _ hblocks.symm)
  case block_func =>
    intro b _
    rw [block, hblocks]
    rfl
  case place =>
    intro i _
    rw [funcOf, blockOf, hinst]
    exact ⟨rfl, rfl⟩
  case operands =>
    intro i _
    rw [op, op, hinst]
    exact List.Subset.refl _

theorem withBlock (p : Program) (f : FuncId) : p.Keeps (p.withBlock f) where
  size_insts_le := Nat.le_refl _
  size_blocks_le := size_blocks_withBlock (p := p) ▸ Nat.le_succ _
  block_func hb := by rw [block_withBlock, if_neg (Nat.ne_of_lt hb)]
  place _ := ⟨rfl, rfl⟩
  operands _ := List.Subset.refl _

theorem appended (p : Program) (c : Cursor) (op : Operation) : p.Keeps (p.appended c op) where
  size_insts_le := size_insts_appended (p := p) ▸ Nat.le_succ _
  size_blocks_le := Nat.le_of_eq size_blocks_appended.symm
  block_func _ := by
    rw [block_appended]
    split <;> rfl
  place hi := by
    rw [funcOf, blockOf, inst_appended, if_neg (Nat.ne_of_lt hi)]
    exact ⟨rfl, rfl⟩
  operands hi := by
    rw [Program.op, Program.op, inst_appended, if_neg (Nat.ne_of_lt hi)]
    exact List.Subset.refl _

/-- An input added to a phi comes after the others. -/
theorem withInput (p : Program) (i : InstId) (val : ValueId) (source : BlockId) :
    p.Keeps (p.withInput i val source) where
  size_insts_le := Nat.le_of_eq size_insts_withInput.symm
  size_blocks_le := Nat.le_refl _
  block_func _ := rfl
  place {j} _ := by
    obtain ⟨hfunc, hblock, -, -⟩ := (p.inst j).withInput_place val source
    rw [funcOf, blockOf, inst_withInput]
    split
    · exact ⟨hfunc, hblock⟩
    · exact ⟨rfl, rfl⟩
  operands {j} _ := by
    rw [op, op, inst_withInput]
    split
    · exact (p.inst j).operands_subset_withInput val source
    · exact List.Subset.refl _

theorem link (p : Program) : p.Keeps (Builder.link p) where
  size_insts_le := Nat.le_refl _
  size_blocks_le := Nat.le_of_eq Builder.size_link_blocks.symm
  block_func {b} _ := Builder.link_block_func b
  place _ := ⟨rfl, rfl⟩
  operands _ := List.Subset.refl _

end Program.Keeps

namespace Session

/-- What a call does to the builder before it appends, or when it does not append. -/
structure Quiet (b b' : Builder) : Prop where
  made : b.Made → b'.Made
  keeps : b.program.Keeps b'.program
  size_insts : b'.program.insts.size = b.program.insts.size

theorem Quiet.refl (b : Builder) : Quiet b b := ⟨id, .refl _, rfl⟩

/-- Declaring a function adds no block. -/
theorem blocks_declare (name : String) (params : Nat) (b : Builder) :
    (Build.declare name params b).2.program.blocks = b.program.blocks := by
  obtain heq | heq := Build.declare_program name params b <;> rw [heq]
  rfl

theorem quiet_declare (name : String) (params : Nat) (b : Builder) :
    Quiet b (Build.declare name params b).2 := by
  refine ⟨.declare name params, ?_, ?_⟩ <;>
    obtain heq | heq := Build.declare_program name params b <;>
    rw [heq]
  · exact .refl _
  · exact .of_eq rfl rfl
  · rfl

/-- Where an instruction can be appended, it is. -/
theorem appendAt_eq_ok {b : Builder} {c : Cursor} {op : Operation} {s : Session}
    (h : appendAt b c op = .ok s) :
    c.block < b.program.blocks.size ∧ s.builder = (Build.append c op b).2 := by
  unfold appendAt at h
  split at h
  · next hc =>
    cases h
    exact ⟨hc, rfl⟩
  · cases h

/-- In a body, the next step is taken. -/
theorem inBody_eq_ok {s s' : Session} {next : Cursor → Except Error Session}
    (h : s.inBody next = .ok s') : ∃ c, s.cursor = some c ∧ next c = .ok s' := by
  unfold inBody at h
  split at h
  · next c hc => exact ⟨c, hc, h⟩
  · cases h

/-- A call appends one instruction at the cursor, or none. -/
theorem step_cases {s s' : Session} {c : Call} (h : s.step c = .ok s') :
    c.appends = false ∧ Quiet s.builder s'.builder ∨
    c.appends = true ∧ ∃ cur op b, s.cursor = some cur ∧ Quiet s.builder b ∧
      cur.block < s.program.blocks.size ∧ s'.builder = (Build.append cur op b).2 := by
  cases c with
  | const c =>
    cases h
    refine .inl ⟨rfl, .const c, ?_, ?_⟩ <;> obtain heq | heq := Build.const_program c s.builder <;>
      rw [heq]
    · exact .refl _
    · exact .of_eq rfl rfl
  | null =>
    cases h
    refine .inl ⟨rfl, .null, ?_, ?_⟩ <;>
      obtain heq | heq := Build.null_program s.builder <;>
      rw [heq]
    · exact .refl _
    · exact .of_eq rfl rfl
  | global name fields loc =>
    cases h
    exact .inl ⟨rfl, .addGlobal name fields loc, .of_eq rfl rfl, rfl⟩
  | declare name params =>
    cases h
    exact .inl ⟨rfl, quiet_declare name params s.builder⟩
  | body f =>
    simp only [step] at h
    split at h
    · next hf =>
      cases h
      refine .inl ⟨rfl, .beginBody f hf, ?_, ?_⟩ <;> rw [Build.beginBody_program]
      · exact .withBlock _ f
      · rfl
    · cases h
  | newBlock =>
    obtain ⟨cur, -, h⟩ := inBody_eq_ok h
    split at h
    · next hf =>
      cases h
      exact .inl ⟨rfl, .newBlock cur.func hf, .withBlock _ cur.func, rfl⟩
    · cases h
  | positionAt b =>
    obtain ⟨cur, -, h⟩ := inBody_eq_ok h
    cases h
    exact .inl ⟨rfl, .refl _⟩
  | locate l =>
    obtain ⟨cur, -, h⟩ := inBody_eq_ok h
    cases h
    exact .inl ⟨rfl, .refl _⟩
  | append op =>
    obtain ⟨cur, hcur, h⟩ := inBody_eq_ok h
    obtain ⟨hc, hs⟩ := appendAt_eq_ok h
    exact .inr ⟨rfl, cur, op, s.builder, hcur, .refl _, hc, hs⟩
  | callNamed name args =>
    obtain ⟨cur, hcur, h⟩ := inBody_eq_ok h
    obtain ⟨hc, hs⟩ := appendAt_eq_ok h
    rw [blocks_declare, ← program] at hc
    exact .inr ⟨rfl, cur, _, _, hcur, quiet_declare name args.length s.builder, hc, hs⟩
  | addIncoming phi val source =>
    simp only [step] at h
    split at h
    · obtain ⟨b, hadd, h⟩ := exists_of_bind_eq_ok h
      cases h
      obtain ⟨i, -, rfl⟩ := Builder.addIncoming_eq_ok hadd
      exact .inl ⟨rfl, .addIncoming phi val source hadd, .withInput _ i val source,
        Array.size_modify ..⟩
    · cases h

/-! ## what a run keeps -/

/-- Among the calls that lead from a session on, one is made in another session. -/
def MadeIn (calls : List Call) (s₀ s : Session) (c : Call) : Prop :=
  ∃ pre post, calls = pre ++ c :: post ∧ s₀.run pre = .ok s

theorem not_madeIn_nil {s₀ s : Session} {c : Call} : ¬MadeIn [] s₀ s c := by
  rintro ⟨pre, post, heq, -⟩
  exact List.append_ne_nil_of_right_ne_nil pre (List.cons_ne_nil c post) heq.symm

theorem run_cons (s : Session) (c : Call) (calls : List Call) :
    s.run (c :: calls) = s.step c >>= fun s' => s'.run calls := List.foldlM_cons ..

theorem run_append (s : Session) (calls calls' : List Call) :
    s.run (calls ++ calls') = s.run calls >>= fun s' => s'.run calls' := List.foldlM_append ..

/-- A call is made at once or after the first. -/
theorem madeIn_cons {calls : List Call} {s₀ s s₁ : Session} {c d : Call} (h : s₀.step d = .ok s₁) :
    MadeIn (d :: calls) s₀ s c ↔ s = s₀ ∧ c = d ∨ MadeIn calls s₁ s c := by
  constructor
  · rintro ⟨pre, post, heq, hrun⟩
    cases pre with
    | nil =>
      cases heq
      cases hrun
      exact .inl ⟨rfl, rfl⟩
    | cons e pre =>
      cases heq
      rw [run_cons, h] at hrun
      exact .inr ⟨pre, post, rfl, hrun⟩
  · rintro (⟨rfl, rfl⟩ | ⟨pre, post, rfl, hrun⟩)
    · exact ⟨[], calls, rfl, rfl⟩
    · refine ⟨d :: pre, post, rfl, ?_⟩
      rw [run_cons, h]
      exact hrun

theorem made_of_step {s s' : Session} {c : Call} (hs : s.builder.Made) (h : s.step c = .ok s') :
    s'.builder.Made ∧ s.program.Keeps s'.program := by
  obtain ⟨-, hq⟩ | ⟨-, cur, op, b, -, hq, hc, heq⟩ := step_cases h
  · exact ⟨hq.made hs, hq.keeps⟩
  · rw [program, program, heq, Build.append_program]
    have hc := Nat.lt_of_lt_of_le hc hq.keeps.size_blocks_le
    exact ⟨.append cur op hc (hq.made hs), hq.keeps.trans (.appended _ cur op)⟩

theorem made_of_run {calls : List Call} {s s' : Session} (hs : s.builder.Made)
    (h : s.run calls = .ok s') : s'.builder.Made ∧ s.program.Keeps s'.program := by
  induction calls generalizing s with
  | nil =>
    cases h
    exact ⟨hs, .refl _⟩
  | cons c calls ih =>
    rw [run_cons] at h
    obtain ⟨s₁, hstep, hrun⟩ := exists_of_bind_eq_ok h
    have hfirst := made_of_step hs hstep
    have hrest := ih hfirst.1 hrun
    exact ⟨hrest.1, hfirst.2.trans hrest.2⟩

theorem inside_of_refersInside {p : Program} (h : refersInside p = true) : p.Inside := by
  simp only [refersInside, List.all_eq_true, Bool.and_eq_true, decide_eq_true_eq, Program.instIds,
    List.mem_range] at h
  constructor
  case operand_lt =>
    intro i v hv
    by_cases hi : i < p.insts.size
    · exact (h i hi).1 v hv
    · rw [Program.op_of_size_le (Nat.le_of_not_lt hi)] at hv
      cases hv
  case successor_lt =>
    intro i b hb
    by_cases hi : i < p.insts.size
    · exact (h i hi).2 b hb
    · rw [Program.op_of_size_le (Nat.le_of_not_lt hi)] at hb
      cases hb

/-- A program that is built comes out of the tables of the last session. -/
theorem build_eq_ok {calls : List Call} {p : Program} (h : build calls = .ok p) :
    ∃ s, run {} calls = .ok s ∧ s.builder.finish = .ok p ∧ s.program.Inside := by
  obtain ⟨s, hrun, hfin⟩ := exists_of_bind_eq_ok h
  obtain ⟨q, hq, hin⟩ := exists_of_bind_eq_ok hfin
  split at hin
  · next hin' =>
    cases hin
    exact ⟨s, hrun, hq, inside_of_refersInside hin'⟩
  · cases hin

/-- A call that is made succeeds, and what is in the tables then is in the program. -/
theorem MadeIn.keeps {calls : List Call} {p : Program} (h : build calls = .ok p) {s : Session}
    {c : Call} (hmade : MadeIn calls {} s c) :
    ∃ s', s.step c = .ok s' ∧ s'.program.Keeps p := by
  obtain ⟨t, hrun, hfin, -⟩ := build_eq_ok h
  obtain ⟨-, -, -, rfl⟩ := Builder.finish_eq_ok_iff.1 hfin
  obtain ⟨pre, post, rfl, hpre⟩ := hmade
  rw [run_append, hpre] at hrun
  obtain ⟨s', hstep, hpost⟩ := exists_of_bind_eq_ok ((run_cons s c post).symm.trans hrun)
  have hs := (made_of_run .start hpre).1
  exact ⟨s', hstep, (made_of_run (made_of_step hs hstep).1 hpost).2.trans (.link _)⟩

/-! ## what is built -/

/-- The phi that an added input goes to reads it from then on. -/
theorem mem_operands_of_addIncoming {s s' : Session} {phi val : ValueId}
    {source : BlockId} {i : Nat}
    (h : s.step (.addIncoming phi val source) = .ok s') (hi : s.program.defInst phi = some i)
    (hphi : (s.program.op i).isPhi = true) :
    i < s'.program.insts.size ∧ val ∈ (s'.program.op i).operands := by
  have hlt : i < s.program.insts.size := by
    by_contra hle
    rw [Program.op_of_size_le (Nat.le_of_not_lt hle)] at hphi
    cases hphi
  simp only [step] at h
  split at h
  · obtain ⟨b, hadd, h⟩ := exists_of_bind_eq_ok h
    cases h
    obtain ⟨j, hj, rfl⟩ := Builder.addIncoming_eq_ok hadd
    obtain rfl : i = j := Option.some.inj (hi.symm.trans hj)
    rw [program, Program.op, Program.inst_withInput, if_pos ⟨rfl, hlt⟩]
    exact ⟨Program.size_insts_withInput.symm ▸ hlt,
      (s.program.inst i).mem_operands_withInput val source hphi⟩
  · cases h

theorem linked_of_build {calls : List Call} {p : Program} (h : build calls = .ok p) : p.Linked := by
  obtain ⟨t, hrun, hfin, hin⟩ := build_eq_ok h
  exact (made_of_run .start hrun).1.linked hin hfin

/-- Whatever calls are made, a program that they build is linked, and a phi that an input was added
to is a user of the input. -/
theorem build_linked {calls : List Call} {p : Program} (h : build calls = .ok p) : p.Linked ∧
    ∀ {s : Session} {phi val : ValueId} {source : BlockId} {i : InstId},
      MadeIn calls {} s (.addIncoming phi val source) → s.program.defInst phi = some i →
      (s.program.op i).isPhi = true → i ∈ p.users val := by
  have hlinked := linked_of_build h
  refine ⟨hlinked, fun hmade hi hphi => ?_⟩
  obtain ⟨s', hstep, hkeeps⟩ := hmade.keeps h
  obtain ⟨hlt, hval⟩ := mem_operands_of_addIncoming hstep hi hphi
  exact hlinked.mem_users_iff.2
    ⟨Nat.lt_of_lt_of_le hlt hkeeps.size_insts_le, hkeeps.operands hlt hval⟩

/-- A loop; the second input of the phi at its head is added when the value is there. -/
def counting : List Call :=
  [.declare "main" 0, .const 0, .const 1, .body 0, .newBlock, .newBlock, .append (.jump 1),
    .positionAt 1, .append (.phi [(1, 0)]), .append (.arith .add 3 2),
    .append (.compare .slt 4 2), .append (.branch 5 1 2), .positionAt 2, .append (.ret none),
    .addIncoming 3 4 1]

theorem build_linked_counting : ∃ p s, build counting = .ok p ∧
    MadeIn counting {} s (.addIncoming 3 4 1) ∧ s.program.defInst 3 = some 1 ∧
    (s.program.op 1).isPhi = true ∧ p.Linked ∧ 1 ∈ p.users 4 := by
  obtain ⟨p, h, -⟩ := exists_of_any_toOption (x := build counting) (P := fun _ => true)
    (by decide +kernel)
  obtain ⟨s, hrun, hs⟩ := exists_of_any_toOption (x := run {} (counting.take 14))
    (P := fun s => decide (s.program.defInst 3 = some 1) && (s.program.op 1).isPhi)
    (by decide +kernel)
  rw [Bool.and_eq_true, decide_eq_true_eq] at hs
  have hmade : MadeIn counting {} s (.addIncoming 3 4 1) := ⟨counting.take 14, [], rfl, hrun⟩
  exact ⟨p, s, h, hmade, hs.1, hs.2, (build_linked h).1, (build_linked h).2 hmade hs.1 hs.2⟩

/-! ## where instructions are placed -/

/-- As long as nothing is appended, instructions are placed as before. -/
theorem placed_congr {p q : Program} (h : p.Keeps q) (hsize : q.insts.size = p.insts.size)
    (hp : p.Arranged) : q.Placed ↔ p.Placed := by
  unfold Program.Placed
  rw [hsize]
  refine forall₂_congr fun i hi => ?_
  rw [(h.place hi).1, (h.place hi).2, h.block_func (hp.blockOf_lt hi)]

/-- An appended instruction is placed in the block of the cursor. -/
theorem placed_appended_iff {p : Program} (c : Cursor) (op : Operation) :
    (p.appended c op).Placed ↔ p.Placed ∧ (p.block c.block).func = c.func := by
  have hkeeps := Program.Keeps.appended p c op
  have hfunc (b : Nat) : ((p.appended c op).block b).func = (p.block b).func := by
    rw [Program.block_appended]
    split <;> rfl
  have hold {i : Nat} (hi : i < p.insts.size) : (((p.appended c op).block
      ((p.appended c op).blockOf i)).func = (p.appended c op).funcOf i ↔
        (p.block (p.blockOf i)).func = p.funcOf i) := by
    rw [hfunc, (hkeeps.place hi).1, (hkeeps.place hi).2]
  have hnew : ((p.appended c op).block ((p.appended c op).blockOf p.insts.size)).func =
      (p.appended c op).funcOf p.insts.size ↔ (p.block c.block).func = c.func := by
    rw [hfunc, Program.blockOf, Program.funcOf, Program.inst_appended, if_pos rfl]
  unfold Program.Placed
  rw [Program.size_insts_appended]
  constructor
  · intro h
    exact ⟨fun i hi => (hold hi).1 (h i (Nat.lt_succ_of_lt hi)), hnew.1 (h _ (Nat.lt_succ_self _))⟩
  · rintro ⟨h, hc⟩ i hi
    obtain hi | rfl := Nat.lt_succ_iff_lt_or_eq.1 hi
    · exact (hold hi).2 (h i hi)
    · exact hnew.2 hc

/-- Where a call appends at all, it does so at a block of the function under construction. -/
def Call.AtOwn (s : Session) (c : Call) : Prop :=
  c.appends = true → ∀ cur, s.cursor = some cur → (s.program.block cur.block).func = cur.func

theorem placed_iff_of_step {s s' : Session} {c : Call} (hs : s.builder.Made)
    (h : s.step c = .ok s') :
    s'.program.Placed ↔ s.program.Placed ∧ c.AtOwn s := by
  obtain ⟨hno, hq⟩ | ⟨hyes, cur, op, b, hcur, hq, hc, heq⟩ := step_cases h
  · have hown : c.AtOwn s := fun happ => absurd happ (by rw [hno]; simp)
    exact (placed_congr hq.keeps hq.size_insts hs.arranged).trans (and_iff_left hown).symm
  · rw [program, heq, Build.append_program, placed_appended_iff,
      placed_congr hq.keeps hq.size_insts hs.arranged, hq.keeps.block_func hc]
    refine and_congr_right fun _ => ⟨fun hfunc _ cur' hcur' => ?_, fun hown => hown hyes cur hcur⟩
    exact Option.some.inj (hcur.symm.trans hcur') ▸ hfunc

theorem placed_iff_of_run {calls : List Call} {s s' : Session} (hs : s.builder.Made)
    (h : s.run calls = .ok s') : s'.program.Placed ↔
      s.program.Placed ∧ ∀ t c, MadeIn calls s t c → c.AtOwn t := by
  induction calls generalizing s with
  | nil =>
    cases h
    exact (and_iff_left fun t c hmade => absurd hmade not_madeIn_nil).symm
  | cons c calls ih =>
    rw [run_cons] at h
    obtain ⟨s₁, hstep, hrun⟩ := exists_of_bind_eq_ok h
    rw [ih (made_of_step hs hstep).1 hrun, placed_iff_of_step hs hstep, and_assoc]
    refine and_congr_right fun _ => ⟨?_, fun hall => ⟨?_, fun t d hmade => ?_⟩⟩
    · rintro ⟨hfirst, hrest⟩ t d hmade
      obtain ⟨rfl, rfl⟩ | hmade := (madeIn_cons hstep).1 hmade
      · exact hfirst
      · exact hrest t d hmade
    · exact hall s c ((madeIn_cons hstep).2 (.inl ⟨rfl, rfl⟩))
    · exact hall t d ((madeIn_cons hstep).2 (.inr hmade))

/-- An instruction belongs to the function that owns its block if and only if the block it was
appended at was of the function under construction; then the instructions of a function are those
that stand in its blocks. -/
theorem placed_iff {calls : List Call} {p : Program} (h : build calls = .ok p) :
    (p.Placed ↔ ∀ s c, MadeIn calls {} s c → c.AtOwn s) ∧
    (p.Placed ↔ ∀ f i, i ∈ p.funcInsts f ↔ i < p.insts.size ∧ p.funcOf i = f) := by
  obtain ⟨t, hrun, hfin, hin⟩ := build_eq_ok h
  have hmade := (made_of_run .start hrun).1
  have hlinked := hmade.linked hin hfin
  obtain ⟨-, -, -, rfl⟩ := Builder.finish_eq_ok_iff.1 hfin
  constructor
  · rw [placed_congr (.link _) rfl hmade.arranged, ← program, placed_iff_of_run .start hrun]
    exact and_iff_right fun i hi => absurd hi (Nat.not_lt_zero i)
  · constructor
    · intro hp f i
      rw [hlinked.arranged.mem_funcInsts_iff]
      exact and_congr_right fun hi => by rw [hp i hi]
    · intro hall i hi
      exact (hlinked.arranged.mem_funcInsts_iff.1 ((hall _ i).2 ⟨hi, rfl⟩)).2

/-- While the body of `main` is built, an instruction is appended at a block of `f`. -/
def straying : List Call :=
  [.declare "f" 0, .declare "main" 0, .body 0, .newBlock, .append (.jump 1), .body 1,
    .append (.ret none), .positionAt 1, .append (.ret none)]

/-- The last instruction of `straying` stands in a block of `f` but belongs to `main`. -/
theorem build_straying : ∃ p, build straying = .ok p ∧ 2 < p.insts.size ∧
    (p.block (p.blockOf 2)).func ≠ p.funcOf 2 := by
  obtain ⟨p, h, hp⟩ := exists_of_any_toOption (x := build straying)
    (P := fun p => decide (2 < p.insts.size ∧ (p.block (p.blockOf 2)).func ≠ p.funcOf 2))
    (by decide +kernel)
  rw [decide_eq_true_eq] at hp
  exact ⟨p, h, hp⟩

theorem placed_iff_straying : ∃ p, build straying = .ok p ∧
    ¬p.Placed ∧ ∃ s c, MadeIn straying {} s c ∧ ¬c.AtOwn s := by
  obtain ⟨p, h, hlt, hne⟩ := build_straying
  have hp : ¬p.Placed := fun hp => hne (hp 2 hlt)
  have hall := mt (placed_iff h).1.2 hp
  simp only [not_forall, exists_prop] at hall
  exact ⟨p, h, hp, hall⟩

/-- What is built need not be placed. -/
theorem not_forall_placed : ¬∀ calls p, build calls = .ok p → p.Placed ∧
    ∀ f i, i ∈ p.funcInsts f ↔ i < p.insts.size ∧ p.funcOf i = f := by
  intro hall
  obtain ⟨p, h, hlt, hne⟩ := build_straying
  exact hne ((hall straying p h).1 2 hlt)

end Session

end DataRace
