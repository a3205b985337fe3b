import DataRace.Proofs.Flow.InductionValue
import Mathlib.Data.List.Permutation

/-!
# DataRace.Proofs.Flow.InductionStep

What the symbolic step of a recurrence is.

A recurrence takes its step from the addition that a header phi grows by.
`Loop.Accumulates` says that a phi of the header grows by a value in this way;
the steps of a loop that are no constants are exactly these values:

* `Induction.exists_accumulates`: a symbolic step is what some phi grows by;
* `Induction.recurrence_of_accumulates`: what a phi grows by is the step of its
  recurrence, unless it is a constant;
* `Induction.forall_step_invariant_iff` — all symbolic steps of a loop are
  invariant exactly if no phi of its header grows by a value computed in it.

Nothing is asked of the value that is added, so it may be computed in the loop
and be another one in each iteration (`not_forall_step_invariant`).
-/

namespace DataRace

/-- A value that no instruction of the loop computes. -/
def Loop.Invariant (p : Program) (l : Loop) (v : ValueId) : Prop :=
  ∀ i, p.defInst v = some i → p.blockOf i ∉ l.blocks

/-- A phi of the header grows by a value: it has one input from outside the loop and one from
inside, and the one from inside is the sum of the phi and the value, casts aside. -/
def Loop.Accumulates (p : Program) (l : Loop) (phi w : ValueId) : Prop :=
  ∃ i incoming start next, p.op i = .phi incoming ∧ p.result i = some phi ∧
    p.blockOf i = l.header ∧ incoming.Perm [start, next] ∧ start.2 ∉ l.blocks ∧ next.2 ∈ l.blocks ∧
    ∃ x y, p.defOp (p.stripCasts next.1) = some (.arith .add x y) ∧
      (p.stripCasts x = phi ∧ p.stripCasts y = w ∨ p.stripCasts y = phi ∧ p.stripCasts x = w)

variable {p : Program} {f : FuncId} {l : Loop} {loops : Loops} {v phi next w : ValueId}

/-- No instruction computes a constant. -/
theorem Program.constValue_eq_none_of_defInst {i : InstId} (h : p.defInst v = some i) :
    p.constValue v = none := by
  unfold Program.defInst at h
  split at h
  · next hdef => rw [Program.constValue, hdef]
  · cases h

namespace Induction

/-! ## terms and steps -/

theorem term_eq_value_iff : term p v = .value w ↔ p.stripCasts v = w ∧ p.constValue w = none := by
  unfold term
  dsimp only
  split
  · next c hc =>
    refine iff_of_false nofun ?_
    rintro ⟨rfl, hnone⟩
    cases hc.symm.trans hnone
  · next hnone =>
    rw [Term.value.injEq]
    exact ⟨fun h => ⟨h, h ▸ hnone⟩, And.left⟩

/-- A phi and its input from inside add up to the phi and a step. -/
theorem stepOf_eq_some_inl {u : ValueId} (h : stepOf p phi next = some (.inl u)) :
    ∃ x y, p.defOp (p.stripCasts next) = some (.arith .add x y) ∧
      (p.stripCasts x = phi ∧ y = u ∨ p.stripCasts y = phi ∧ x = u) := by
  unfold stepOf at h
  split at h
  · next x y hop =>
    refine ⟨x, y, hop, ?_⟩
    split at h
    · next hx =>
      cases h
      exact .inl ⟨hx, rfl⟩
    · split at h
      · next hy =>
        cases h
        exact .inr ⟨hy, rfl⟩
      · cases h
  · split at h
    · obtain ⟨c, -, hc⟩ := Option.map_eq_some_iff.1 h
      cases hc
    · cases h
  · cases h

/-- If both operands of the addition are the phi, its step is the phi itself. -/
theorem exists_stepOf_of_add {x y : ValueId}
    (hop : p.defOp (p.stripCasts next) = some (.arith .add x y))
    (h : p.stripCasts x = phi ∧ p.stripCasts y = w ∨ p.stripCasts y = phi ∧ p.stripCasts x = w) :
    ∃ u, stepOf p phi next = some (.inl u) ∧ p.stripCasts u = w := by
  simp only [stepOf, hop]
  by_cases hx : p.stripCasts x = phi
  · refine ⟨y, if_pos hx, ?_⟩
    rcases h with ⟨-, hw⟩ | ⟨hy, hw⟩
    · exact hw
    · rw [hy, ← hx, hw]
  · obtain ⟨hy, hw⟩ := h.resolve_left fun h => hx h.1
    exact ⟨x, by rw [if_neg hx, if_pos hy], hw⟩

/-- An operation with a constant keeps a symbolic step. -/
theorem step_of_scaled {op : Arith} {r r' : Recurrence} {c : Int64}
    (h : scaled op r c = .ok (some r')) (hw : r'.step = .value w) : r.step = .value w := by
  obtain ⟨header, start, step⟩ := r
  cases start with
  | value u => cases op <;> cases h
  | const s =>
    cases op with
    | add | sub =>
      obtain ⟨_, -, h⟩ := exists_of_bind_eq_ok h
      cases h
      exact hw
    | mul =>
      cases step with
      | value u => cases h
      | const t =>
        obtain ⟨_, -, h⟩ := exists_of_bind_eq_ok h
        obtain ⟨_, -, h⟩ := exists_of_bind_eq_ok h
        cases h
        cases hw
    | other => cases h

/-! ## header phis -/

/-- The inputs of a phi are told apart if one comes from outside the loop and one from inside. -/
theorem splitInputs_eq_iff {incoming : List (ValueId × BlockId)} {s n : ValueId} :
    incoming.length = 2 ∧ splitInputs l incoming = (some s, some n) ↔
      ∃ start next, incoming.Perm [start, next] ∧ start.2 ∉ l.blocks ∧ next.2 ∈ l.blocks ∧
        start.1 = s ∧ next.1 = n := by
  constructor
  · rintro ⟨hlen, hsplit⟩
    obtain ⟨⟨u, b⟩, ⟨w, c⟩, rfl⟩ := List.length_eq_two.1 hlen
    simp only [splitInputs, List.foldl_cons, List.foldl_nil] at hsplit
    cases hb : l.contains b with
    | true =>
      cases hc : l.contains c with
      | true => simp [hb, hc] at hsplit
      | false =>
        have hout : c ∉ l.blocks := fun h => by simp [Loop.contains_iff.2 h] at hc
        simp only [hb, hc, if_true, Bool.false_eq_true, if_false, Prod.mk.injEq,
          Option.some.injEq] at hsplit
        exact ⟨(w, c), (u, b), .swap .., hout, Loop.contains_iff.1 hb, hsplit⟩
    | false =>
      have hout : b ∉ l.blocks := fun h => by simp [Loop.contains_iff.2 h] at hb
      cases hc : l.contains c with
      | true =>
        simp only [hb, hc, if_true, Bool.false_eq_true, if_false, Prod.mk.injEq,
          Option.some.injEq] at hsplit
        exact ⟨(u, b), (w, c), .refl _, hout, Loop.contains_iff.1 hc, hsplit⟩
      | false => simp [hb, hc] at hsplit
  · rintro ⟨start, next, hperm, hout, hin, rfl, rfl⟩
    refine ⟨hperm.length_eq, ?_⟩
    rw [← Loop.contains_iff, Bool.not_eq_true] at hout
    rw [← Loop.contains_iff] at hin
    rcases List.perm_pair.1 hperm with rfl | rfl <;> simp [splitInputs, hout, hin]

/-- A symbolic step of the recurrence of a header phi is what the phi grows by. -/
theorem accumulates_of_phiRecurrence {i : InstId} {r : Recurrence}
    (h : phiRecurrence p loops i = .ok (some r)) (hphi : p.result i = some phi)
    (hl : ∀ b j, loops.loopOf b = some j → (loops.get j).header = l.header → loops.get j = l)
    (hr : r.header = l.header) (hw : r.step = .value w) :
    l.Accumulates p phi w ∧ p.constValue w = none := by
  obtain ⟨j, incoming, s, n, step, hj, hheader, hop, hlen, hsplit, hstep, hr', -, hgrows⟩ :=
    phiRecurrence_spec h hphi
  have hat : p.blockOf i = l.header := hr'.symm.trans hr
  rw [hl _ j hj (hheader.trans hat)] at hsplit
  obtain ⟨start, next, hperm, hout, hin, -, rfl⟩ := splitInputs_eq_iff.1 ⟨hlen, hsplit⟩
  cases step with
  | inr c =>
    obtain ⟨_, -, hconst⟩ := hgrows
    cases hconst.symm.trans hw
  | inl u =>
    obtain ⟨hstrip, hnone⟩ := term_eq_value_iff.1 (hgrows.symm.trans hw)
    obtain ⟨x, y, hadd, hsides⟩ := stepOf_eq_some_inl hstep
    refine ⟨⟨i, incoming, start, next, hop, hphi, hat, hperm, hout, hin, x, y, hadd, ?_⟩, hnone⟩
    rcases hsides with ⟨hx, rfl⟩ | ⟨hy, rfl⟩
    · exact .inl ⟨hx, hstrip⟩
    · exact .inr ⟨hy, hstrip⟩

/-- The recurrence of a header phi that grows by a value. -/
theorem phiRecurrence_of_stepOf {i : InstId} {j : LoopId} {incoming : List (ValueId × BlockId)}
    {s n u : ValueId} (hop : p.op i = .phi incoming) (hphi : p.result i = some phi)
    (hj : loops.loopOf (p.blockOf i) = some j) (hheader : (loops.get j).header = p.blockOf i)
    (hlen : incoming.length = 2) (hsplit : splitInputs (loops.get j) incoming = (some s, some n))
    (hstep : stepOf p phi n = some (.inl u)) :
    phiRecurrence p loops i = .ok (some ⟨p.blockOf i, term p s, term p u⟩) := by
  have hop' : (p.inst i).op = .phi incoming := hop
  have hphi' : (p.inst i).result = some phi := hphi
  have hj' : loops.loopOf (p.inst i).block = some j := hj
  have hnot : ¬(p.blockOf i ≠ (p.inst i).block ∨ incoming.length ≠ 2) :=
    not_or.2 ⟨not_not.2 rfl, not_not.2 hlen⟩
  simp only [phiRecurrence, hop', hphi', hj', Option.map_some, hsplit, hstep, hheader, if_neg hnot]

end Induction

/-- The innermost loop around a header is its own. -/
theorem Loops.loopOf_header (hp : p.Linked) {j : LoopId} (hj : j < (p.loops f).loops.size) :
    (p.loops f).loopOf ((p.loops f).get j).header = some j := by
  refine ((loopOf_iff hp _).1 j).2 ⟨hj, (natural_get hp hj).header_mem, fun k hk hmem => ?_⟩
  rcases eq_or_ne j k with rfl | hne
  · exact fun _ => id
  · exact ((inside_iff hp hj hk).2 ⟨hne, hmem⟩).1

namespace Induction

/-! ## recurrences -/

/-- A symbolic step of a loop is what some phi of the header grows by. -/
theorem exists_accumulates (hp : p.WellFormed)
    (hl : ∀ b j, loops.loopOf b = some j → (loops.get j).header = l.header → loops.get j = l)
    (hv : v < p.values.size) {r : Recurrence} (h : recurrence p loops v = .ok (some r))
    (hr : r.header = l.header) (hw : r.step = .value w) :
    ∃ phi, l.Accumulates p phi w ∧ p.constValue w = none := by
  -- on the recursion of the oracle: operations with a constant keep the step
  induction v using Nat.strong_induction_on generalizing r with
  | _ v ih =>
    have hstrip : p.stripCasts v < p.values.size := Nat.lt_of_le_of_lt (stripCasts_le p v) hv
    obtain ⟨i, hi, hphi | ⟨op, a, b, r', c, hop, hscaled, hside⟩⟩ := recurrence_spec h
    · exact ⟨_, accumulates_of_phiRecurrence hphi (hp.result_of_defInst hstrip hi) hl hr hw⟩
    · have hstep := step_of_scaled hscaled hw
      have hheader := (scaled_spec hscaled).1.symm.trans hr
      rcases hside with ⟨hlt, hrec, -⟩ | ⟨-, hlt, hrec, -⟩
      · exact ih a hlt (Nat.lt_trans hlt hv) hrec hheader hstep
      · exact ih b hlt (Nat.lt_trans hlt hv) hrec hheader hstep

/-- What a phi of the header grows by is the step of its recurrence, unless it is a constant. -/
theorem recurrence_of_accumulates (hp : p.Finished) {j : LoopId} (hj : j < (p.loops f).loops.size)
    (h : ((p.loops f).get j).Accumulates p phi w) (hw : p.constValue w = none) :
    ∃ start, recurrence p (p.loops f) phi =
      .ok (some ⟨((p.loops f).get j).header, start, .value w⟩) := by
  obtain ⟨i, incoming, start, next, hop, hphi, hat, hperm, hout, hin, x, y, hadd, hsides⟩ := h
  obtain ⟨u, hstep, hstrip⟩ := exists_stepOf_of_add hadd hsides
  obtain ⟨hlen, hsplit⟩ := splitInputs_eq_iff.2 ⟨start, next, hperm, hout, hin, rfl, rfl⟩
  have hdef : p.defInst phi = some i := by
    rw [Program.defInst, (hp.wellFormed.result_iff.1 hphi).2]
  have hbare : p.stripCasts phi = phi := by
    have hnone : p.castSource? phi = none := by
      simp only [Program.castSource?, Program.defOp, hdef, Option.map_some, hop]
    rw [Program.stripCasts, Program.followOlder, hnone]
  refine ⟨term p start.1, ?_⟩
  rw [recurrence, hbare]
  simp only [hdef, hop]
  rw [phiRecurrence_of_stepOf hop hphi (hat ▸ Loops.loopOf_header hp.linked hj) hat.symm hlen hsplit
    hstep, hat, term_eq_value_iff.2 ⟨hstrip, hw⟩]

/-- **Symbolic steps are invariant exactly where nothing computed in the loop is accumulated.**  The
symbolic steps of all recurrences of a loop are computed outside if and only if no phi of the header
grows by a value that is computed inside. -/
theorem forall_step_invariant_iff (hp : p.Finished) {j : LoopId} (hj : j < (p.loops f).loops.size) :
    (∀ v < p.values.size, ∀ r w, recurrence p (p.loops f) v = .ok (some r) →
        r.header = ((p.loops f).get j).header → r.step = .value w →
        ((p.loops f).get j).Invariant p w) ↔
      ∀ phi w, ((p.loops f).get j).Accumulates p phi w → ((p.loops f).get j).Invariant p w := by
  constructor
  · intro hall phi w h
    cases hw : p.constValue w with
    | some c =>
      intro i hi
      cases (Program.constValue_eq_none_of_defInst hi).symm.trans hw
    | none =>
      obtain ⟨start, hrec⟩ := recurrence_of_accumulates hp hj h hw
      obtain ⟨i, -, -, -, -, hphi, -⟩ := h
      exact hall phi (hp.wellFormed.result_iff.1 hphi).1 _ w hrec rfl rfl
  · intro hall v hv r w h hr hw
    have hl (b : BlockId) (k : LoopId) (hk : (p.loops f).loopOf b = some k)
        (heq : ((p.loops f).get k).header = ((p.loops f).get j).header) :
        (p.loops f).get k = (p.loops f).get j := by
      have hlt := (Loops.mem_around_iff.1 (Loops.mem_around_of_loopOf hk)).1
      rw [Loops.header_inj hp.linked hlt hj heq]
    obtain ⟨phi, hacc, -⟩ := exists_accumulates hp.wellFormed hl hv h hr hw
    exact hall phi w hacc

/-- Two loops, one after the other: the first phi grows by the parameter, the second one by a value
that is loaded in each iteration. -/
def strided : List Command :=
  [.declare "main" 1, .global "g" 0, .const 0, .body 0, .block 0, .block 0, .block 0, .block 0,
    .append 0 0 (.jump 1),
    .append 0 1 (.phi []), .append 0 1 (.arith .add 4 1), .append 0 1 (.compare .slt 4 1),
    .append 0 1 (.branch 6 1 2),
    .append 0 2 (.jump 3),
    .append 0 3 (.phi []), .append 0 3 (.load 2), .append 0 3 (.arith .add 7 8),
    .append 0 3 (.compare .slt 7 1), .append 0 3 (.branch 10 3 4),
    .append 0 4 (.ret none),
    .incoming 4 3 0, .incoming 4 5 1, .incoming 7 3 2, .incoming 7 9 3]

/-- A loop that accumulates a value loaded in it has this value as a step. -/
theorem not_forall_step_invariant : (Builder.ofScript strided).Finished ∧
    ¬ ∀ v < (Builder.ofScript strided).values.size, ∀ r w,
      recurrence (Builder.ofScript strided) ((Builder.ofScript strided).loops 0) v = .ok (some r) →
        r.header = (((Builder.ofScript strided).loops 0).get 1).header → r.step = .value w →
        (((Builder.ofScript strided).loops 0).get 1).Invariant (Builder.ofScript strided) w := by
  have hrec : recurrence (Builder.ofScript strided) ((Builder.ofScript strided).loops 0) 7 =
      .ok (some ⟨3, .const 0, .value 8⟩) := by decide +kernel
  refine ⟨Builder.finished_ofScript (by decide +kernel), fun hall => ?_⟩
  have hdef : (Builder.ofScript strided).defInst 8 = some 7 := by decide +kernel
  exact hall 7 (by decide +kernel) _ 8 hrec (by decide +kernel) rfl 7 hdef (by decide +kernel)

/-- The only value that the first loop accumulates is the parameter. -/
theorem accumulates_strided (h : (((Builder.ofScript strided).loops 0).get 0).Accumulates
    (Builder.ofScript strided) phi w) : w = 1 := by
  have hphis : ∀ i < (Builder.ofScript strided).insts.size,
      (Builder.ofScript strided).blockOf i = (((Builder.ofScript strided).loops 0).get 0).header →
        ((Builder.ofScript strided).op i, (Builder.ofScript strided).result i) ∈
          [(.phi [(3, 0), (5, 1)], some 4), (.arith .add 4 1, some 5), (.compare .slt 4 1, some 6),
            (.branch 6 1 2, none)] := by
    decide +kernel
  have hblocks : 0 ∉ (((Builder.ofScript strided).loops 0).get 0).blocks := by decide +kernel
  have hadd : (Builder.ofScript strided).defOp ((Builder.ofScript strided).stripCasts 5) =
      some (.arith .add 4 1) := by decide +kernel
  have hbare : (Builder.ofScript strided).stripCasts 1 = 1 := by decide +kernel
  obtain ⟨i, incoming, start, next, hop, hphi, hat, hperm, -, hin, x, y, hnext, hsides⟩ := h
  have hmem := hphis i (Program.lt_of_result hphi) hat
  simp only [hop, hphi, List.mem_cons, Prod.mk.injEq, Operation.phi.injEq, Option.some.injEq,
    reduceCtorEq, false_and, List.not_mem_nil, or_false] at hmem
  obtain ⟨rfl, rfl⟩ := hmem
  have hmem : next ∈ [((3 : ValueId), (0 : BlockId)), (5, 1)] := hperm.mem_iff.2 (by simp)
  simp only [List.mem_cons, List.not_mem_nil, or_false] at hmem
  rcases hmem with rfl | rfl
  · exact absurd hin hblocks
  · cases hadd.symm.trans hnext
    rw [hbare] at hsides
    rcases hsides with ⟨-, hw⟩ | ⟨hphi, -⟩
    · exact hw.symm
    · cases hphi

theorem forall_step_invariant_strided : (Builder.ofScript strided).Finished ∧
    recurrence (Builder.ofScript strided) ((Builder.ofScript strided).loops 0) 4 =
      .ok (some ⟨1, .const 0, .value 1⟩) ∧
    ∀ v < (Builder.ofScript strided).values.size, ∀ r w,
      recurrence (Builder.ofScript strided) ((Builder.ofScript strided).loops 0) v = .ok (some r) →
        r.header = (((Builder.ofScript strided).loops 0).get 0).header → r.step = .value w →
        (((Builder.ofScript strided).loops 0).get 0).Invariant (Builder.ofScript strided) w := by
  have hfin : (Builder.ofScript strided).Finished := Builder.finished_ofScript (by decide +kernel)
  have hparam : (Builder.ofScript strided).defInst 1 = none := by decide +kernel
  refine ⟨hfin, by decide +kernel, (forall_step_invariant_iff hfin (by decide +kernel)).2 ?_⟩
  intro phi w hacc i hi
  rw [accumulates_strided hacc, hparam] at hi
  cases hi

end Induction

end DataRace
