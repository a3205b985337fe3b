import DataRace.Guard.Exclusion
import DataRace.Proofs.Flow.InductionValue
import DataRace.Proofs.Program.Script

/-!
# DataRace.Proofs.Guard.Meaning

What a guard says about the values of a program.

Reading a guard off a branch strips casts, puts the operands in a fixed order
and turns the predicate around with them, and negates it on the branch that is
taken if the comparison fails.  None of this changes what the guard says: it is
true of values exactly if the comparison has the outcome of the branch.

* `Comparison.read_eq`, `GlobalTest.read_eq_some_iff` — what a guard is made of;
* `Comparison.holds_onOutcome`, `GlobalTest.load_of_read` — where it is true;
* `Comparison.ordered_swap`, `GlobalTest.fact_read_swap` — a comparison that is written
  the other way around is read as the same guard;
* `GlobalTest.passes_of_excludes` — of tests that exclude each other, a value passes one;
* `guards_tell_outcome` — all of it, for the branches of a program.
-/

namespace DataRace

variable {p : Program} {σ : ValueId → Int64} {i : InstId} {cond lhs rhs x y : ValueId}
  {pred : Predicate} {outcome : Bool}

/-- Words for the values of a program where constants are what they are. -/
def Program.KeepsConstants (p : Program) (σ : ValueId → Int64) : Prop :=
  ∀ v c, p.constValue v = some c → σ v = c

theorem Program.lt_of_constValue {v : ValueId} {c : Int64} (h : p.constValue v = some c) :
    v < p.values.size := by
  refine Nat.lt_of_not_le fun hle => ?_
  rw [constValue, value, Array.getD_eq_getD_getElem?, Array.getElem?_eq_none hle] at h
  cases h

/-- The operands of a comparison are values of the program. -/
theorem Program.WellFormed.compare_lt (hp : p.WellFormed) (hop : p.op i = .compare pred lhs rhs) :
    lhs < p.values.size ∧ rhs < p.values.size :=
  ⟨hp.operand_lt (i := i) (by simp [hop, Operation.operands]),
    hp.operand_lt (i := i) (by simp [hop, Operation.operands])⟩

/-- A predicate or its negation, as a branch was taken or not, says which way it was. -/
theorem Predicate.eval_outcome (q : Predicate) (l r : Int64) (outcome : Bool) :
    (if outcome then q else q.inverse).eval l r = true ↔ q.eval l r = outcome := by
  cases outcome <;> simp [eval_inverse]

/-! ## comparisons -/

namespace Comparison

/-- The comparison is true of some values. -/
def holds (g : Comparison) (σ : ValueId → Int64) : Bool := g.pred.eval (σ g.lhs) (σ g.rhs)

/-- Two values compare in a certain way; the predicate is turned around with the operands. -/
def ordered (x y : ValueId) (pred : Predicate) : Comparison :=
  if x < y then ⟨x, y, pred⟩ else ⟨y, x, pred.swap⟩

/-- What holds where a comparison has an outcome. -/
def onOutcome (g : Comparison) (outcome : Bool) : Comparison :=
  { g with pred := if outcome then g.pred else g.pred.inverse }

theorem read_eq (hi : p.defInst cond = some i) (hop : p.op i = .compare pred lhs rhs) :
    read p cond outcome =
      some ⟨(ordered (p.stripCasts lhs) (p.stripCasts rhs) pred).onOutcome outcome, i⟩ := by
  simp only [read, hi, hop, bind, Option.bind, ordered, onOutcome]
  cases outcome <;> rfl

theorem holds_ordered : (ordered x y pred).holds σ = pred.eval (σ x) (σ y) := by
  rw [ordered]
  split
  · rfl
  · exact Predicate.eval_swap pred (σ x) (σ y)

theorem holds_onOutcome (g : Comparison) :
    (g.onOutcome outcome).holds σ = true ↔ g.holds σ = outcome :=
  Predicate.eval_outcome g.pred _ _ outcome

/-- Of two different values it does not matter which one is compared to the other. -/
theorem ordered_swap (h : x ≠ y) : ordered y x pred.swap = ordered x y pred := by
  rw [ordered, ordered, Predicate.swap_swap]
  rcases Nat.lt_or_gt_of_ne h with hlt | hlt
  · rw [if_pos hlt, if_neg (Nat.lt_asymm hlt)]
  · rw [if_pos hlt, if_neg (Nat.lt_asymm hlt)]

end Comparison

/-! ## tests of globals -/

namespace GlobalTest

variable {t u : GlobalTest} {g : GlobalGuard}

/-- The test is true of a value of the global. -/
def passes (t : GlobalTest) (w : Int64) : Bool := t.pred.eval w t.const

/-- One operand of a comparison is a value and the other one a constant; the predicate is the one
that holds with the constant on the right. -/
def Compares (p : Program) (pred : Predicate) (lhs rhs v : ValueId) (c : Int64) (q : Predicate) :
    Prop :=
  v = lhs ∧ p.constValue rhs = some c ∧ q = pred ∨
    v = rhs ∧ p.constValue lhs = some c ∧ q = pred.swap

theorem compares_swap {v : ValueId} {c : Int64} {q : Predicate} :
    Compares p pred.swap rhs lhs v c q ↔ Compares p pred lhs rhs v c q := by
  rw [Compares, Compares, Predicate.swap_swap, or_comm]

/-- The test of the global that a value was loaded from, if one was. -/
def ofLoaded (p : Program) (outcome : Bool) (cmp : InstId) (v : ValueId) (c : Int64)
    (q : Predicate) :
    Option GlobalGuard := do
  let load ← p.defInst v
  match p.op load with
  | .load ptr =>
    let _ ← p.asGlobal ptr
    some ⟨⟨ptr, c, if outcome then q else q.inverse⟩, ⟨cmp, load⟩⟩
  | _ => none

theorem constValue_of_defInst {v : ValueId} (h : p.defInst v = some i) : p.constValue v = none := by
  unfold Program.defInst at h
  unfold Program.constValue
  split at h
  · next hdef => rw [hdef]
  · cases h

/-- A comparison with a constant is read off the other operand, if a global was loaded there. -/
theorem read_eq (hi : p.defInst cond = some i) (hop : p.op i = .compare pred lhs rhs) :
    read p cond outcome =
      match p.constValue rhs, p.constValue lhs with
      | some c, _ => ofLoaded p outcome i lhs c pred
      | none, some c => ofLoaded p outcome i rhs c pred.swap
      | none, none => none := by
  simp only [read, hi, hop, bind, Option.bind_some]
  cases p.constValue rhs <;> cases p.constValue lhs <;> rfl

theorem ofLoaded_eq_some_iff {v : ValueId} {c : Int64} {q : Predicate} :
    ofLoaded p outcome i v c q = some g ↔
      p.defInst v = some g.evidence.load ∧ p.op g.evidence.load = .load g.fact.ptr ∧
      (p.asGlobal g.fact.ptr).isSome ∧ g.fact.const = c ∧
      g.fact.pred = (if outcome then q else q.inverse) ∧ g.evidence.cmp = i := by
  constructor
  · intro h
    obtain ⟨load, hload, h⟩ := Option.bind_eq_some_iff.1 h
    split at h
    · next ptr hop =>
      obtain ⟨o, ho, h⟩ := Option.bind_eq_some_iff.1 h
      cases h
      exact ⟨hload, hop, Option.isSome_of_eq_some ho, rfl, rfl, rfl⟩
    · cases h
  · obtain ⟨⟨ptr, const, q'⟩, ⟨cmp, load⟩⟩ := g
    rintro ⟨hload, hop, hglobal, rfl, rfl, rfl⟩
    obtain ⟨o, ho⟩ := Option.isSome_iff_exists.1 hglobal
    simp only [ofLoaded, hload, hop, ho, bind, Option.bind_some]

/-- What is read is a test of a global by a value loaded from it. -/
theorem read_eq_some_iff (hi : p.defInst cond = some i) (hop : p.op i = .compare pred lhs rhs) :
    read p cond outcome = some g ↔ ∃ v c q, Compares p pred lhs rhs v c q ∧
      ofLoaded p outcome i v c q = some g := by
  -- A constant is not loaded, so that it does not matter which of two constants is looked at first.
  have hnone {v : ValueId} {c c' : Int64} {q : Predicate} (hv : p.constValue v = some c') :
      ofLoaded p outcome i v c q ≠ some g := by
    intro h
    rw [constValue_of_defInst (ofLoaded_eq_some_iff.1 h).1] at hv
    cases hv
  rw [read_eq hi hop]
  cases hr : p.constValue rhs with
  | some c =>
    refine ⟨fun h => ⟨lhs, c, pred, .inl ⟨rfl, hr, rfl⟩, h⟩, ?_⟩
    rintro ⟨v, c', q, ⟨rfl, hc, rfl⟩ | ⟨rfl, -, rfl⟩, h⟩
    · cases hr.symm.trans hc
      exact h
    · exact absurd h (hnone hr)
  | none =>
    cases hl : p.constValue lhs with
    | some c =>
      refine ⟨fun h => ⟨rhs, c, pred.swap, .inr ⟨rfl, hl, rfl⟩, h⟩, ?_⟩
      rintro ⟨v, c', q, ⟨rfl, hc, rfl⟩ | ⟨rfl, hc, rfl⟩, h⟩
      · cases hr.symm.trans hc
      · cases hl.symm.trans hc
        exact h
    | none =>
      refine ⟨fun h => absurd h (Option.some_ne_none _).symm, ?_⟩
      rintro ⟨v, c', q, ⟨rfl, hc, rfl⟩ | ⟨rfl, hc, rfl⟩, h⟩
      · cases hr.symm.trans hc
      · cases hl.symm.trans hc

/-- What is tested about the loaded value is what is compared. -/
theorem eval_of_compares {v : ValueId} {c : Int64} {q : Predicate} (hσ : p.KeepsConstants σ)
    (h : Compares p pred lhs rhs v c q) : q.eval (σ v) c = pred.eval (σ lhs) (σ rhs) := by
  rcases h with ⟨rfl, hc, rfl⟩ | ⟨rfl, hc, rfl⟩
  · rw [hσ _ _ hc]
  · rw [← hσ _ _ hc, Predicate.eval_swap]

/-- A test belongs to a load of the global, and the loaded value passes it where the comparison has
the outcome. -/
theorem load_of_read (hp : p.WellFormed) (hi : p.defInst cond = some i)
    (hop : p.op i = .compare pred lhs rhs) (h : read p cond outcome = some g) :
    ∃ v, p.op g.evidence.load = .load g.fact.ptr ∧ p.result g.evidence.load = some v ∧
      ∀ σ, p.KeepsConstants σ →
        (g.fact.passes (σ v) = true ↔ pred.eval (σ lhs) (σ rhs) = outcome) := by
  obtain ⟨v, c, q, hcmp, h⟩ := (read_eq_some_iff hi hop).1 h
  obtain ⟨hdef, hload, -, hconst, hpred, -⟩ := ofLoaded_eq_some_iff.1 h
  have hv : v < p.values.size := by
    rcases hcmp with ⟨rfl, -, -⟩ | ⟨rfl, -, -⟩
    · exact (hp.compare_lt hop).1
    · exact (hp.compare_lt hop).2
  refine ⟨v, hload, hp.result_of_defInst hv hdef, fun σ hσ => ?_⟩
  rw [passes, hpred, hconst, Predicate.eval_outcome, eval_of_compares hσ hcmp]

/-- The comparing instruction is evidence of a test and no part of it. -/
theorem ofLoaded_fact {j : InstId} {v : ValueId} {c : Int64} {q : Predicate} :
    (ofLoaded p outcome i v c q).map (·.fact) = (ofLoaded p outcome j v c q).map (·.fact) := by
  unfold ofLoaded
  cases p.defInst v with
  | none => rfl
  | some load =>
    simp only [bind, Option.bind_some]
    split
    · rw [Option.map_bind, Option.map_bind]
      rfl
    · rfl

theorem map_fact_read_eq_some_iff (hi : p.defInst cond = some i)
    (hop : p.op i = .compare pred lhs rhs) :
    (read p cond outcome).map (·.fact) = some t ↔ ∃ v c q, Compares p pred lhs rhs v c q ∧
      (ofLoaded p outcome i v c q).map (·.fact) = some t := by
  simp only [Option.map_eq_some_iff, read_eq_some_iff hi hop]
  constructor
  · rintro ⟨g, ⟨v, c, q, hcmp, hg⟩, ht⟩
    exact ⟨v, c, q, hcmp, g, hg, ht⟩
  · rintro ⟨v, c, q, hcmp, g, hg, ht⟩
    exact ⟨g, ⟨v, c, q, hcmp, hg⟩, ht⟩

/-- A comparison that is written the other way around is read as the same test. -/
theorem fact_read_swap {cond' : ValueId} {j : InstId} (hi : p.defInst cond = some i)
    (hop : p.op i = .compare pred lhs rhs) (hj : p.defInst cond' = some j)
    (hop' : p.op j = .compare pred.swap rhs lhs) :
    (read p cond' outcome).map (·.fact) = (read p cond outcome).map (·.fact) := by
  refine Option.ext fun t => ?_
  simp only [map_fact_read_eq_some_iff hi hop, map_fact_read_eq_some_iff hj hop', compares_swap,
    ofLoaded_fact (i := j) (j := i)]

theorem excludes_comm (a b : GlobalTest) : a.excludes b = b.excludes a := by
  have hpred : a.pred = b.pred.inverse ↔ b.pred = a.pred.inverse := by
    constructor <;> intro h <;> rw [h, Predicate.inverse_inverse]
  simp only [excludes, hpred, Bool.beq_comm (a := a.ptr), Bool.beq_comm (a := a.const)]

/-- Of tests that exclude each other, a value passes one. -/
theorem passes_of_excludes (h : t.excludes u = true) (w : Int64) : t.passes w = !u.passes w := by
  simp only [excludes, Bool.and_eq_true, beq_iff_eq, decide_eq_true_eq] at h
  obtain ⟨⟨-, hconst⟩, hpred⟩ := h
  rw [passes, passes, hconst, hpred, Predicate.eval_inverse]

end GlobalTest

/-! ## branches -/

/-- **A guard says what the branch decided.**  A comparison is read as a guard that is true of
values exactly if the comparison has the outcome of the branch, and so is a comparison of a global
with a constant, where it can be read as a test.  Written the other way around it is the same guard,
and no value passes two tests that exclude each other. -/
theorem guards_tell_outcome (hp : p.Finished) (hi : p.defInst cond = some i)
    (hop : p.op i = .compare pred lhs rhs) (outcome : Bool) :
    (∃ g, Comparison.read p cond outcome = some g ∧ ∀ σ, p.CopiesCasts σ →
      (g.fact.holds σ = true ↔ pred.eval (σ lhs) (σ rhs) = outcome)) ∧
    (∀ g, GlobalTest.read p cond outcome = some g →
      ∃ v, p.op g.evidence.load = .load g.fact.ptr ∧ p.result g.evidence.load = some v ∧
        ∀ σ, p.KeepsConstants σ →
          (g.fact.passes (σ v) = true ↔ pred.eval (σ lhs) (σ rhs) = outcome)) ∧
    (∀ cond' j, p.defInst cond' = some j → p.op j = .compare pred.swap rhs lhs →
      (p.stripCasts lhs ≠ p.stripCasts rhs →
        (Comparison.read p cond' outcome).map (·.fact) =
          (Comparison.read p cond outcome).map (·.fact)) ∧
      (GlobalTest.read p cond' outcome).map (·.fact) =
        (GlobalTest.read p cond outcome).map (·.fact)) ∧
    ∀ t u : GlobalTest, t.excludes u = true →
      u.excludes t = true ∧ ∀ w, ¬(t.passes w = true ∧ u.passes w = true) := by
  obtain ⟨hl, hr⟩ := hp.wellFormed.compare_lt hop
  refine ⟨⟨_, Comparison.read_eq hi hop, fun σ hσ => ?_⟩,
    fun g => GlobalTest.load_of_read hp.wellFormed hi hop,
    fun cond' j hj hop' => ⟨fun hne => ?_, ?_⟩, fun t u h => ⟨t.excludes_comm u ▸ h, fun w => ?_⟩⟩
  · rw [Comparison.holds_onOutcome, Comparison.holds_ordered, hσ.eq_stripCasts hp.wellFormed hl,
      hσ.eq_stripCasts hp.wellFormed hr]
  · rw [Comparison.read_eq hi hop, Comparison.read_eq hj hop', Comparison.ordered_swap hne]
    rfl
  · exact GlobalTest.fact_read_swap hi hop hj hop'
  · rw [GlobalTest.passes_of_excludes h]
    simp

/-- A global that is compared to five with the five on the left; a branch that goes on below it, and
the same comparison written the other way around. -/
def fiveBelowFlag : List Command :=
  [.global "flag" 0, .declare "main" 0, .const 5, .body 0, .block 0, .block 0,
    .append 0 0 (.load 0), .append 0 0 (.cast 3), .append 0 0 (.compare .ult 2 3),
    .append 0 0 (.compare .ugt 3 2), .append 0 0 (.branch 5 1 2),
    .append 0 1 (.jump 2), .append 0 2 (.ret none)]

/-- Where the branch is not taken the global is at most five, whatever it is; the branch that would
exclude it is the one that is taken. -/
theorem guards_tell_outcome_fiveBelowFlag : (Builder.ofScript fiveBelowFlag).Finished ∧
    ∀ x : Int64, ∃ σ, (Builder.ofScript fiveBelowFlag).CopiesCasts σ ∧
      (Builder.ofScript fiveBelowFlag).KeepsConstants σ ∧ σ 3 = x ∧
      ((⟨2, 3, .uge⟩ : Comparison).holds σ = true ↔ Predicate.ult.eval 5 x = false) ∧
      ((⟨0, 5, .ule⟩ : GlobalTest).passes x = true ↔ Predicate.ult.eval 5 x = false) ∧
      (Comparison.read (Builder.ofScript fiveBelowFlag) 6 false).map (·.fact) = some ⟨2, 3, .uge⟩ ∧
      (GlobalTest.read (Builder.ofScript fiveBelowFlag) 6 false).map (·.fact) = some ⟨0, 5, .ule⟩ ∧
      ¬((⟨0, 5, .ule⟩ : GlobalTest).passes x = true ∧
        (⟨0, 5, .ugt⟩ : GlobalTest).passes x = true) := by
  have hfin : (Builder.ofScript fiveBelowFlag).Finished :=
    Builder.finished_ofScript (by decide +kernel)
  have hcompare : (Comparison.read (Builder.ofScript fiveBelowFlag) 5 false).map (·.fact) =
      some ⟨2, 3, .uge⟩ := by decide +kernel
  have htest : (GlobalTest.read (Builder.ofScript fiveBelowFlag) 5 false).map (·.fact) =
      some ⟨0, 5, .ule⟩ := by decide +kernel
  have hloaded : ∀ i < (Builder.ofScript fiveBelowFlag).insts.size,
      (Builder.ofScript fiveBelowFlag).op i = .load 0 →
        (Builder.ofScript fiveBelowFlag).result i = some 3 := by decide +kernel
  have hcasts : ∀ i < (Builder.ofScript fiveBelowFlag).insts.size,
      ∀ v ∈ (Builder.ofScript fiveBelowFlag).result i, ((Builder.ofScript fiveBelowFlag).op i, v) ∈
        [(.load 0, 3), (.cast 3, 4), (.compare .ult 2 3, 5), (.compare .ugt 3 2, 6)] := by
    decide +kernel
  have hconsts : ∀ v < (Builder.ofScript fiveBelowFlag).values.size,
      ((Builder.ofScript fiveBelowFlag).constValue v).all (fun c => (v, c) = (2, 5)) = true := by
    decide +kernel
  refine ⟨hfin, fun x => ?_⟩
  let σ (v : ValueId) : Int64 := if v = 2 then 5 else x
  have hσ : (Builder.ofScript fiveBelowFlag).CopiesCasts σ := by
    intro i v u hcast hv
    have hmem := hcasts i (Program.lt_of_result hv) v hv
    simp only [hcast, List.mem_cons, Prod.mk.injEq, Operation.cast.injEq, reduceCtorEq, false_and,
      List.not_mem_nil, or_false, false_or] at hmem
    obtain ⟨rfl, rfl⟩ := hmem
    rfl
  have hσ' : (Builder.ofScript fiveBelowFlag).KeepsConstants σ := by
    intro v c hc
    have hall := hconsts v (Program.lt_of_constValue hc)
    rw [hc, Option.all_some] at hall
    obtain ⟨rfl, rfl⟩ := Prod.mk.inj (of_decide_eq_true hall)
    rfl
  have hdef : (Builder.ofScript fiveBelowFlag).defInst 5 = some 2 := by decide +kernel
  have hop : (Builder.ofScript fiveBelowFlag).op 2 = .compare .ult 2 3 := by decide +kernel
  obtain ⟨⟨g, hg, hholds⟩, hpasses, hswap, hexcl⟩ := guards_tell_outcome hfin hdef hop false
  obtain ⟨t, ht, hfact⟩ := Option.map_eq_some_iff.1 htest
  obtain ⟨v, hload, hv, hpass⟩ := hpasses t ht
  obtain ⟨hsame, hsame'⟩ := hswap 6 3 (by decide +kernel) (by decide +kernel)
  rw [hfact] at hload hpass
  obtain rfl : v = 3 := Option.some.inj (hv.symm.trans (hloaded _ (Program.lt_of_result hv) hload))
  rw [hg, Option.map_some, Option.some.injEq] at hcompare
  rw [hcompare] at hholds
  refine ⟨σ, hσ, hσ', rfl, hholds σ hσ, hpass σ hσ', ?_, hsame'.trans htest,
    (hexcl _ _ (by decide)).2 x⟩
  rw [hsame (by decide +kernel), hg, Option.map_some, hcompare]

end DataRace
