import DataRace.Proofs.Program.Session

/-!
# DataRace.Proofs.Program.Age

Values are numbered in the order in which they come about, so a smaller number
is an older value.

A call that appends an instruction may read any handle it is given.  Where it
reads only values that are there already, the result is younger than all of
them; an input that is added to a phi later may be younger than the phi.

* `Program.Aged`: what an instruction other than a phi reads is older than the
  value it defines;
* `Program.AddsNoResult`: what the calls do that append nothing; they keep this;
* `Session.descends_of_build`: back from a value of a finished program, past
  phis, operands only get older.
-/

namespace DataRace

/-- Adding an input changes the operation of phis only. -/
theorem Instruction.op_withInput {val : ValueId} {source : BlockId} {x : Instruction}
    (h : (x.withInput val source).op.isPhi = false) : (x.withInput val source).op = x.op := by
  unfold withInput at h ⊢
  split at h
  · cases h
  · rfl

namespace Program

variable {p q : Program}

/-! ## operands and results -/

/-- An instruction that is no phi reads only values older than the one it defines. -/
structure Aged (p : Program) : Prop where
  inst_lt : ∀ {v i : Nat}, v < p.values.size → (p.value v).definition = .inst i → i < p.insts.size
  operand_lt : ∀ {v i u : Nat}, v < p.values.size → (p.value v).definition = .inst i →
    (p.op i).isPhi = false → u ∈ (p.op i).operands → u < v

/-- Back from any value, unless a phi chooses it, the operands are older. -/
structure Descends (p : Program) : Prop where
  operand_lt : ∀ {i u : Nat}, u ∈ (p.op i).operands → u < p.values.size
  older : ∀ {v u : Nat} {op : Operation}, p.defOp v = some op → op.isPhi = false → u ∈ op.operands →
    u < v

/-- The values that are added are no results, and of the instructions only phis change. -/
structure AddsNoResult (p q : Program) : Prop where
  values : ∃ added : Array Value, q.values = p.values ++ added ∧
    ∀ x ∈ added, ∀ i, x.definition ≠ .inst i
  size_insts : q.insts.size = p.insts.size
  op : ∀ {i : Nat}, (q.op i).isPhi = false → q.op i = p.op i

namespace AddsNoResult

theorem of_push {d : Definition} (hd : ∀ i, d ≠ .inst i)
    (hvalues : q.values = p.values.push ⟨d, []⟩)
    (hinsts : q.insts = p.insts) : p.AddsNoResult q where
  values := ⟨#[⟨d, []⟩], by rw [hvalues, Array.push_eq_append], by simpa using hd⟩
  size_insts := congrArg _ hinsts
  op _ := by simp only [Program.op, inst, hinsts]

theorem of_eq (hvalues : q.values = p.values) (hinsts : q.insts = p.insts) : p.AddsNoResult q where
  values := ⟨#[], by rw [hvalues, Array.append_empty], by simp⟩
  size_insts := congrArg _ hinsts
  op _ := by simp only [Program.op, inst, hinsts]

theorem declared (p : Program) (name : String) (n : Nat) : p.AddsNoResult (p.declared name n) where
  values := by
    refine ⟨#[⟨.function p.funcs.size, []⟩] ++
      (Array.range n).map fun k => ⟨.param p.funcs.size k, []⟩, ?_, ?_⟩
    · simp only [Program.declared, Array.push_eq_append, Array.append_assoc]
    · simp only [Array.mem_append, Array.mem_singleton, Array.mem_map]
      rintro x (rfl | ⟨k, -, rfl⟩) i <;> simp
  size_insts := rfl
  op _ := rfl

theorem withInput (p : Program) (i : InstId) (val : ValueId) (source : BlockId) :
    p.AddsNoResult (p.withInput i val source) where
  values := ⟨#[], (Array.append_empty ..).symm, by simp⟩
  size_insts := size_insts_withInput
  op {j} hphi := by
    rw [Program.op, inst_withInput] at hphi ⊢
    by_cases hj : i = j ∧ i < p.insts.size
    · rw [if_pos hj] at hphi ⊢
      exact Instruction.op_withInput hphi
    · rw [if_neg hj]
      rfl

theorem size_values_le (h : p.AddsNoResult q) : p.values.size ≤ q.values.size := by
  obtain ⟨added, heq, -⟩ := h.values
  rw [heq, Array.size_append]
  exact Nat.le_add_right ..

/-- A result was there before. -/
theorem definition_of_result (h : p.AddsNoResult q) {v i : Nat} (hv : v < q.values.size)
    (hdef : (q.value v).definition = .inst i) :
    v < p.values.size ∧ (p.value v).definition = .inst i := by
  obtain ⟨added, heq, hadded⟩ := h.values
  rw [heq, Array.size_append] at hv
  rw [value, heq, Array.getD_eq_getD_getElem?, Array.getElem?_append] at hdef
  split at hdef
  · next hlt => exact ⟨hlt, by rwa [value, Array.getD_eq_getD_getElem?]⟩
  · next hle =>
    rw [Array.getElem?_eq_getElem (by omega)] at hdef
    exact absurd hdef (hadded _ (Array.getElem_mem _) i)

theorem aged (h : p.AddsNoResult q) (hp : p.Aged) : q.Aged where
  inst_lt hv hdef := by
    obtain ⟨hv, hdef⟩ := h.definition_of_result hv hdef
    exact h.size_insts ▸ hp.inst_lt hv hdef
  operand_lt hv hdef hphi hu := by
    obtain ⟨hv, hdef⟩ := h.definition_of_result hv hdef
    have hop := h.op hphi
    rw [hop] at hphi hu
    exact hp.operand_lt hv hdef hphi hu

end AddsNoResult

namespace Aged

theorem empty : Program.empty.Aged where
  inst_lt hv := absurd hv (Nat.not_lt_zero _)
  operand_lt hv := absurd hv (Nat.not_lt_zero _)

/-- A new instruction defines the youngest value. -/
theorem appended (h : p.Aged) (c : Cursor) {op : Operation}
    (hop : op.isPhi = false → ∀ u ∈ op.operands, u < p.values.size) : (p.appended c op).Aged := by
  have hdef {v i : Nat} (hv : v < (p.appended c op).values.size)
      (hdef : ((p.appended c op).value v).definition = .inst i) :
      (v < p.values.size ∧ (p.value v).definition = .inst i) ∨
        v = p.values.size ∧ i = p.insts.size := by
    unfold Program.appended value at hdef
    unfold Program.appended at hv
    cases hr : op.hasResult with
    | false =>
      simp only [hr, Bool.false_eq_true, if_false] at hv hdef
      exact .inl ⟨hv, hdef⟩
    | true =>
      simp only [hr, if_true, Array.size_push, Table.getD_push] at hv hdef
      split at hdef
      · next heq =>
        cases hdef
        exact .inr ⟨heq, rfl⟩
      · exact .inl ⟨by omega, hdef⟩
  constructor
  case inst_lt =>
    intro v i hv hd
    rw [size_insts_appended]
    obtain ⟨hv, hd⟩ | ⟨-, rfl⟩ := hdef hv hd
    · exact Nat.lt_succ_of_lt (h.inst_lt hv hd)
    · exact Nat.lt_succ_self _
  case operand_lt =>
    intro v i u hv hd hphi hu
    rw [Program.op, inst_appended] at hphi hu
    obtain ⟨hv, hd⟩ | ⟨rfl, rfl⟩ := hdef hv hd
    · rw [if_neg (Nat.ne_of_lt (h.inst_lt hv hd))] at hphi hu
      exact h.operand_lt hv hd hphi hu
    · rw [if_pos rfl] at hphi hu
      exact hop hphi u hu

theorem link (h : p.Aged) : (Builder.link p).Aged := by
  have hdef {v i : Nat} (hv : v < (Builder.link p).values.size)
      (hdef : ((Builder.link p).value v).definition = .inst i) :
      v < p.values.size ∧ (p.value v).definition = .inst i := by
    rw [Builder.size_link_values] at hv
    rw [Builder.link_value_definition] at hdef
    exact ⟨hv, hdef⟩
  exact ⟨fun hv hd => h.inst_lt (hdef hv hd).1 (hdef hv hd).2,
    fun hv hd => h.operand_lt (hdef hv hd).1 (hdef hv hd).2⟩

/-- A look-up off the table answers some operation, whose operands are in the table. -/
theorem descends (h : p.Aged) (hin : p.Inside) : p.Descends := by
  refine ⟨hin.operand_lt, fun {v u op} hop hphi hu => ?_⟩
  obtain ⟨i, hi, rfl⟩ := Option.map_eq_some_iff.1 hop
  by_cases hv : v < p.values.size
  · unfold defInst at hi
    split at hi
    · next hdef =>
      cases hi
      exact h.operand_lt hv hdef hphi hu
    · cases hi
  · exact Nat.lt_of_lt_of_le (hin.operand_lt hu) (Nat.le_of_not_lt hv)

end Aged

end Program

/-! ## what a call keeps -/

namespace Session

/-- The values that the instruction appended by a call reads when it is appended.  The inputs of a
phi do not count. -/
def Call.reads : Call → List ValueId
  | append op => if op.isPhi then [] else op.operands
  | callNamed _ args => args
  | _ => []

/-- What the call reads was created before. -/
def Call.ReadsOlder (s : Session) (c : Call) : Prop := ∀ v ∈ c.reads, v < s.program.values.size

instance (s : Session) (c : Call) : Decidable (c.ReadsOlder s) :=
  inferInstanceAs (Decidable (∀ v ∈ c.reads, v < s.program.values.size))

theorem addsNoResult_declare (name : String) (params : Nat) (b : Builder) :
    b.program.AddsNoResult (Build.declare name params b).2.program := by
  obtain heq | heq := Build.declare_program name params b <;> rw [heq]
  · exact .of_eq rfl rfl
  · exact .declared _ name params

/-- A call appends the instruction whose operands it reads, or it adds no result. -/
theorem addsNoResult_or_appended {s s' : Session} {c : Call} (h : s.step c = .ok s') :
    s.program.AddsNoResult s'.program ∨ ∃ cur op q, s.program.AddsNoResult q ∧
      s'.program = q.appended cur op ∧ (op.isPhi = false → c.reads = op.operands) := by
  unfold program
  cases c with
  | const c =>
    cases h
    refine .inl ?_
    obtain heq | heq := Build.const_program c s.builder <;> rw [heq]
    · exact .of_eq rfl rfl
    · exact .of_push (d := .const c) (by simp) rfl rfl
  | null =>
    cases h
    refine .inl ?_
    obtain heq | heq := Build.null_program s.builder <;> rw [heq]
    · exact .of_eq rfl rfl
    · exact .of_push (d := .null) (by simp) rfl rfl
  | global name fields loc =>
    cases h
    exact .inl (.of_push (d := .global s.builder.program.globals.size) (by simp) rfl rfl)
  | declare name params =>
    cases h
    exact .inl (addsNoResult_declare name params s.builder)
  | body f =>
    simp only [step] at h
    split at h
    · cases h
      refine .inl ?_
      rw [Build.beginBody_program]
      exact .of_eq rfl rfl
    · cases h
  | newBlock =>
    obtain ⟨cur, -, h⟩ := inBody_eq_ok h
    split at h
    · cases h
      exact .inl (.of_eq rfl rfl)
    · cases h
  | positionAt b =>
    obtain ⟨cur, -, h⟩ := inBody_eq_ok h
    cases h
    exact .inl (.of_eq rfl rfl)
  | locate l =>
    obtain ⟨cur, -, h⟩ := inBody_eq_ok h
    cases h
    exact .inl (.of_eq rfl rfl)
  | append op =>
    obtain ⟨cur, -, h⟩ := inBody_eq_ok h
    obtain ⟨-, hs⟩ := appendAt_eq_ok h
    refine .inr ⟨cur, op, s.builder.program, .of_eq rfl rfl, ?_, fun hphi => by
      simp [Call.reads, hphi]⟩
    rw [hs, Build.append_program]
  | callNamed name args =>
    obtain ⟨cur, -, h⟩ := inBody_eq_ok h
    obtain ⟨-, hs⟩ := appendAt_eq_ok h
    refine .inr ⟨cur, .call (.direct (Build.declare name args.length s.builder).1) args, _,
      addsNoResult_declare name args.length s.builder, ?_, fun _ => rfl⟩
    rw [hs, Build.append_program]
  | addIncoming phi val source =>
    simp only [step] at h
    split at h
    · obtain ⟨b, hadd, h⟩ := exists_of_bind_eq_ok h
      cases h
      obtain ⟨i, -, rfl⟩ := Builder.addIncoming_eq_ok hadd
      exact .inl (.withInput _ i val source)
    · cases h

theorem aged_of_step {s s' : Session} {c : Call} (hs : s.program.Aged) (hc : c.ReadsOlder s)
    (h : s.step c = .ok s') : s'.program.Aged := by
  obtain hadds | ⟨cur, op, q, hadds, heq, hreads⟩ := addsNoResult_or_appended h
  · exact hadds.aged hs
  · rw [heq]
    refine (hadds.aged hs).appended cur fun hphi u hu => ?_
    exact Nat.lt_of_lt_of_le (hc u (hreads hphi ▸ hu)) hadds.size_values_le

/-! ## what a run keeps -/

theorem aged_of_run {calls : List Call} {s s' : Session} (hs : s.program.Aged)
    (hcalls : ∀ t c, MadeIn calls s t c → c.ReadsOlder t) (h : s.run calls = .ok s') :
    s'.program.Aged := by
  induction calls generalizing s with
  | nil =>
    cases h
    exact hs
  | cons c calls ih =>
    rw [run_cons] at h
    obtain ⟨s₁, hstep, hrun⟩ := exists_of_bind_eq_ok h
    have hfirst := hcalls s c ((madeIn_cons hstep).2 (.inl ⟨rfl, rfl⟩))
    exact ih (aged_of_step hs hfirst hstep)
      (fun t d hmade => hcalls t d ((madeIn_cons hstep).2 (.inr hmade))) hrun

/-- In a program built by calls that read values created before, operands are older than results. -/
theorem descends_of_build {calls : List Call} {p : Program} (h : build calls = .ok p)
    (hcalls : ∀ s c, MadeIn calls {} s c → c.ReadsOlder s) : p.Descends := by
  obtain ⟨s, hrun, hfin, hin⟩ := build_eq_ok h
  have haged : s.builder.program.Aged := aged_of_run (s := {}) .empty hcalls hrun
  obtain ⟨-, -, -, rfl⟩ := Builder.finish_eq_ok_iff.1 hfin
  refine haged.link.descends ⟨fun hv => ?_, fun hb => ?_⟩
  · exact Builder.size_link_values.symm ▸ hin.operand_lt hv
  · exact Builder.size_link_blocks.symm ▸ hin.successor_lt hb

/-- Whether the calls of a run read values created before. -/
def readOlder (s : Session) : List Call → Bool
  | [] => true
  | c :: calls => c.ReadsOlder s && (s.step c).toOption.all (readOlder · calls)

theorem readsOlder_of_readOlder {calls : List Call} {s t : Session} {c : Call}
    (h : s.readOlder calls = true) (hmade : MadeIn calls s t c) : c.ReadsOlder t := by
  induction calls generalizing s with
  | nil => exact absurd hmade not_madeIn_nil
  | cons d calls ih =>
    simp only [readOlder, Bool.and_eq_true, decide_eq_true_eq] at h
    cases hstep : s.step d with
    | ok s₁ =>
      obtain ⟨rfl, rfl⟩ | hmade := (madeIn_cons hstep).1 hmade
      · exact h.1
      · rw [hstep] at h
        exact ih h.2 hmade
    | error e =>
      obtain ⟨pre, post, heq, hrun⟩ := hmade
      cases pre with
      | nil =>
        cases heq
        cases hrun
        exact h.1
      | cons d' pre =>
        cases heq
        rw [run_cons, hstep] at hrun
        cases hrun

end Session

end DataRace
