import DataRace.Proofs.Flow.InductionValue

/-!
# DataRace.Proofs.Flow.ExitCondition

What the exit condition of a loop says about the branch it is read from.

`Program.branchTarget?` is the block that a branch on a comparison goes to when
every value is a given 64-bit word.  The exit condition compares the induction
variable to the bound, whichever side of the comparison it is on and whichever
successor leaves the loop:

* `Induction.exitCondition_spec` — what an exit condition is made of;
* `Induction.eval_of_oriented` — turning the comparison around keeps its outcome;
* `Induction.stays_iff` — control stays in the loop exactly where it holds.
-/

namespace DataRace

/-- Where control goes from a block that ends with a branch on a comparison. -/
def Program.branchTarget? (p : Program) (σ : ValueId → Int64) (b : BlockId) : Option BlockId :=
  match (p.block b).terminator.map p.op with
  | some (.branch cond whenTrue whenFalse) =>
    match p.defOp cond with
    | some (.compare pred lhs rhs) =>
      some (if pred.eval (σ lhs) (σ rhs) then whenTrue else whenFalse)
    | _ => none
  | _ => none

variable {p : Program} {loops : Loops} {σ : ValueId → Int64}

/-- A branch goes on in a loop that it can leave as its outcome says, or as it does not say. -/
theorem Loop.mem_branch_iff {l : Loop} {whenTrue whenFalse : BlockId}
    (hone : whenTrue ∈ l.blocks ↔ whenFalse ∉ l.blocks) (holds : Bool) :
    (if holds then whenTrue else whenFalse) ∈ l.blocks ↔
      (if l.contains whenFalse then !holds else holds) = true := by
  by_cases hfalse : whenFalse ∈ l.blocks
  · rw [if_pos (contains_iff.2 hfalse)]
    cases holds <;> simp [hone, hfalse]
  · rw [if_neg (mt contains_iff.1 hfalse)]
    cases holds <;> simp [hone, hfalse]

namespace Induction

variable {j : LoopId} {b : BlockId} {c : ExitCondition}

/-- The comparison behind an exit condition has the induction variable on one side and the bound on
the other; it is turned around if the induction variable is on the right, and negated if control
goes on in the loop where the comparison is false. -/
theorem exitCondition_spec (h : exitCondition p loops j b = .ok (some c)) :
    ∃ cond whenTrue whenFalse pred lhs rhs,
      (p.block b).terminator.map p.op = some (.branch cond whenTrue whenFalse) ∧
      p.defOp cond = some (.compare pred lhs rhs) ∧
      isInductionVariable p loops (loops.get j) c.indvar = .ok true ∧
      ∃ q, c.pred = (if (loops.get j).contains whenFalse then q.inverse else q) ∧
        (c.indvar = p.stripCasts lhs ∧ c.bound = p.stripCasts rhs ∧ q = pred ∨
          c.indvar = p.stripCasts rhs ∧ c.bound = p.stripCasts lhs ∧ q = pred.swap) := by
  unfold exitCondition at h
  dsimp only at h
  split at h
  · next cond whenTrue whenFalse hterm =>
    refine ⟨cond, whenTrue, whenFalse, ?_⟩
    split at h
    · cases h
    · next cmp hdef =>
      split at h
      · next pred lhs rhs hop =>
        have hcmp : p.defOp cond = some (.compare pred lhs rhs) := by
          rw [Program.defOp, hdef, Option.map_some, hop]
        refine ⟨pred, lhs, rhs, hterm, hcmp, ?_⟩
        obtain ⟨onLeft, hleft, h⟩ := exists_of_bind_eq_ok h
        split at h
        · next hyes =>
          cases h
          exact ⟨hyes ▸ hleft, pred, rfl, .inl ⟨rfl, rfl, rfl⟩⟩
        · obtain ⟨onRight, hright, h⟩ := exists_of_bind_eq_ok h
          split at h
          · next hyes =>
            cases h
            exact ⟨hyes ▸ hright, pred.swap, rfl, .inr ⟨rfl, rfl, rfl⟩⟩
          · cases h
      · cases h
  · cases h

/-- Turning a comparison around does not change its outcome, and neither do casts. -/
theorem eval_of_oriented {q pred : Predicate} {u v lhs rhs : ValueId} (hp : p.WellFormed)
    (hσ : p.CopiesCasts σ) (hl : lhs < p.values.size) (hr : rhs < p.values.size)
    (h : u = p.stripCasts lhs ∧ v = p.stripCasts rhs ∧ q = pred ∨
      u = p.stripCasts rhs ∧ v = p.stripCasts lhs ∧ q = pred.swap) :
    q.eval (σ u) (σ v) = pred.eval (σ lhs) (σ rhs) := by
  rw [hσ.eq_stripCasts hp hl, hσ.eq_stripCasts hp hr]
  rcases h with ⟨rfl, rfl, rfl⟩ | ⟨rfl, rfl, rfl⟩
  · rfl
  · rw [Predicate.eval_swap]

/-- **Exit conditions decide whether a loop goes on.**  Where a branch has one successor in the loop
and one outside, it goes to the one in the loop exactly where the exit condition holds. -/
theorem stays_iff {cond : ValueId} {whenTrue whenFalse : BlockId} (hp : p.Finished)
    (hσ : p.CopiesCasts σ)
    (hterm : (p.block b).terminator.map p.op = some (.branch cond whenTrue whenFalse))
    (hone : Xor (whenTrue ∈ (loops.get j).blocks) (whenFalse ∈ (loops.get j).blocks))
    (h : exitCondition p loops j b = .ok (some c)) :
    ∃ target, p.branchTarget? σ b = some target ∧
      (target ∈ (loops.get j).blocks ↔ c.pred.eval (σ c.indvar) (σ c.bound) = true) := by
  obtain ⟨_, _, _, pred, lhs, rhs, hterm', hcmp, -, q, hpred, hsides⟩ := exitCondition_spec h
  cases hterm.symm.trans hterm'
  obtain ⟨i, -, hop⟩ := Option.map_eq_some_iff.1 hcmp
  have hlt {u : ValueId} (hu : u = lhs ∨ u = rhs) : u < p.values.size :=
    hp.wellFormed.operand_lt (i := i) (by rw [hop]; simpa [Operation.operands] using hu)
  have heval := eval_of_oriented hp.wellFormed hσ (hlt (.inl rfl)) (hlt (.inr rfl)) hsides
  refine ⟨if pred.eval (σ lhs) (σ rhs) then whenTrue else whenFalse, ?_, ?_⟩
  · simp only [Program.branchTarget?, hterm, hcmp]
  · rw [Loop.mem_branch_iff (xor_iff_iff_not.1 hone), hpred, ← heval]
    split <;> simp [Predicate.eval_inverse]

/-- A loop that is left where the bound is, unsigned, at most the counter; the counter is on the
right of the comparison and under a cast. -/
def leftOnTrue : List Command :=
  [.declare "main" 1, .const 0, .const 1, .body 0, .block 0, .block 0, .block 0,
    .append 0 0 (.jump 1),
    .append 0 1 (.phi []), .append 0 1 (.cast 4), .append 0 1 (.compare .ule 1 5),
    .append 0 1 (.branch 6 3 2),
    .append 0 2 (.arith .add 4 3), .append 0 2 (.jump 1),
    .incoming 4 2 0, .incoming 4 7 2,
    .append 0 3 (.ret none)]

/-- The counter and the bound may be any words; the loop goes on where the counter is below. -/
theorem stays_iff_leftOnTrue : (Builder.ofScript leftOnTrue).Finished ∧
    exitCondition (Builder.ofScript leftOnTrue) ((Builder.ofScript leftOnTrue).loops 0) 0 1 =
      .ok (some ⟨3, 4, 1, .ult⟩) ∧
    ∀ x y : Int64, ∃ σ, (Builder.ofScript leftOnTrue).CopiesCasts σ ∧ σ 4 = x ∧ σ 1 = y ∧
      ∃ target, (Builder.ofScript leftOnTrue).branchTarget? σ 1 = some target ∧
        (target ∈ (((Builder.ofScript leftOnTrue).loops 0).get 0).blocks ↔
          Predicate.ult.eval x y = true) := by
  have hfin : (Builder.ofScript leftOnTrue).Finished :=
    Builder.finished_ofScript (by decide +kernel)
  have hcond : exitCondition (Builder.ofScript leftOnTrue)
    ((Builder.ofScript leftOnTrue).loops 0) 0 1 =
      .ok (some ⟨3, 4, 1, .ult⟩) := by decide +kernel
  have hterm : ((Builder.ofScript leftOnTrue).block 1).terminator.map
    (Builder.ofScript leftOnTrue).op =
      some (.branch 6 3 2) := by decide +kernel
  have hblocks : 3 ∉ (((Builder.ofScript leftOnTrue).loops 0).get 0).blocks ∧
      2 ∈ (((Builder.ofScript leftOnTrue).loops 0).get 0).blocks := by decide +kernel
  have hops : ∀ i < (Builder.ofScript leftOnTrue).insts.size,
      ∀ v ∈ (Builder.ofScript leftOnTrue).result i, ((Builder.ofScript leftOnTrue).op i, v) ∈
        [(.phi [(2, 0), (7, 2)], 4), (.cast 4, 5), (.compare .ule 1 5, 6),
          (.arith .add 4 3, 7)] := by
    decide +kernel
  refine ⟨hfin, hcond, fun x y => ?_⟩
  let σ (v : ValueId) : Int64 := if v = 4 ∨ v = 5 then x else y
  have hσ : (Builder.ofScript leftOnTrue).CopiesCasts σ := by
    intro i v u hcast hv
    have hmem := hops i (Program.lt_of_result hv) v hv
    simp only [hcast, List.mem_cons, Prod.mk.injEq, Operation.cast.injEq, reduceCtorEq, false_and,
      List.not_mem_nil, or_false, false_or] at hmem
    obtain ⟨rfl, rfl⟩ := hmem
    rfl
  exact ⟨σ, hσ, rfl, rfl, stays_iff hfin hσ hterm (.inr ⟨hblocks.2, hblocks.1⟩) hcond⟩

end Induction

end DataRace
