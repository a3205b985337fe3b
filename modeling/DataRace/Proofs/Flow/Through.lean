import DataRace.Proofs.Call.Component
import DataRace.Proofs.Flow.DomTree
import DataRace.Proofs.Flow.Run

/-!
# DataRace.Proofs.Flow.Through

Every way through a function passes what dominates its return.

As long as control has not passed an instruction, it has not got into the block
of that instruction or stands before it there (`Program.Before`).  The return is
not before an instruction that dominates it, so no way gets to the return without
passing that instruction (`Subject.mem_of_wayThrough`).
-/

namespace DataRace

open Std

namespace Program

/-- Control passes from the start of a function to its return. -/
structure WayThrough (p : Program) (f : FuncId) (run : List InstId) : Prop where
  starts : run.head? = p.start? f
  returns : run.getLast? = p.returnOf f
  nonempty : run ≠ []
  runs : p.Runs run

instance (p : Program) (f : FuncId) (run : List InstId) : Decidable (p.WayThrough f run) :=
  decidable_of_iff (run.head? = p.start? f ∧ run.getLast? = p.returnOf f ∧ run ≠ [] ∧ p.Runs run)
    ⟨fun h => ⟨h.1, h.2.1, h.2.2.1, h.2.2.2⟩, fun h => ⟨h.starts, h.returns, h.nonempty, h.runs⟩⟩

/-- Control at `j` has not passed `i`: it got around the block of `i`, or stands before `i` in
it. -/
def Before (p : Program) (f : FuncId) (i j : InstId) : Prop :=
  p.blockOf j ≠ p.blockOf i ∧ p.blockOf j ∈ (FlowGraph.forward p f).reachedAround (p.blockOf i) ∨
    p.blockOf j = p.blockOf i ∧ (p.inst j).pos < (p.inst i).pos

section

variable {p : Program} {f : FuncId} {i j k : Nat} (hp : p.Finished) (hi : i < p.insts.size)
  (hphi : (p.op i).isPhi = false)

include hp hi hphi

/-- At the beginning of a block control is before an instruction that it has not passed. -/
theorem before_of_firstInst {b : BlockId} (hfirst : p.firstInst b = some j) (hne : j ≠ i)
    (haround : b ≠ p.blockOf i → b ∈ (FlowGraph.forward p f).reachedAround (p.blockOf i)) :
    p.Before f i j := by
  obtain ⟨hj, rfl, -⟩ := firstInst_spec hp.wellFormed hfirst
  by_cases hb : p.blockOf j = p.blockOf i
  · obtain ⟨k, hk, -, -, hpos⟩ := hp.exists_firstInst hi hphi
    rw [← hb, hfirst, Option.some.injEq] at hk
    subst hk
    refine .inr ⟨hb, Nat.lt_of_le_of_ne hpos fun heq => hne ?_⟩
    exact hp.wellFormed.eq_of_pos hj hi hb heq
  · exact .inl ⟨hb, haround hb⟩

theorem Before.follows (h : p.Before f i j) (hj : j < p.insts.size) (hstep : p.Follows j k)
    (hne : k ≠ i) : p.Before f i k := by
  obtain ⟨hterm, hb, hfirst⟩ | ⟨-, hnext⟩ := follows_cases hp.wellFormed hstep
  · refine before_of_firstInst hp hi hphi hfirst hne fun hblock => ?_
    rcases h with ⟨-, haround⟩ | ⟨hsame, hpos⟩
    · exact FlowGraph.mem_around_of_next haround hb (hp.succ_spec hb).2.1 hblock
    · -- A terminator has nothing behind it.
      have hle := hp.pos_le_of_isTerminator hj hterm hi hsame.symm
      omega
  · obtain ⟨hk, hblock, hpos⟩ := nextInst_spec hp.wellFormed hnext
    rcases h with ⟨hother, haround⟩ | ⟨hsame, hlt⟩
    · exact .inl (hblock ▸ ⟨hother, haround⟩)
    · refine .inr ⟨hblock.trans hsame, Nat.lt_of_le_of_ne (by omega) fun heq => hne ?_⟩
      exact hp.wellFormed.eq_of_pos hk hi (hblock.trans hsame) heq

/-- A run that starts before an instruction and does not pass it ends before it. -/
theorem before_of_runs {run : List InstId} (h : p.Before f i j) (hj : j < p.insts.size)
    (hruns : p.Runs (j :: run)) (hnot : i ∉ run) (hlast : (j :: run).getLast? = some k) :
    p.Before f i k := by
  induction run generalizing j with
  | nil =>
    rw [List.getLast?_singleton, Option.some.injEq] at hlast
    exact hlast ▸ h
  | cons l run ih =>
    obtain ⟨hstep, hrest⟩ := List.isChain_cons_cons.1 hruns
    have hne : l ≠ i := fun heq => hnot (heq ▸ List.mem_cons_self)
    refine ih (h.follows hp hi hphi hj hstep hne) (lt_of_follows hp.wellFormed hstep) hrest
      (fun hmem => hnot (List.mem_cons_of_mem l hmem)) ?_
    rwa [List.getLast?_cons_cons] at hlast

/-- A way through a function that does not pass an instruction returns before it. -/
theorem WayThrough.before_return {run : List InstId} (h : p.WayThrough f run) (hnot : i ∉ run)
    {r : InstId} (hr : p.returnOf f = some r) : p.Before f i r := by
  obtain ⟨hstart, hret, hne, hruns⟩ := h
  cases run with
  | nil => exact absurd rfl hne
  | cons j run =>
    obtain ⟨b, hb, hfirst⟩ := Option.bind_eq_some_iff.1 hstart.symm
    have hmem : b ∈ (p.func f).blocks := List.mem_of_mem_head? hb
    have hbefore : p.Before f i j := by
      refine before_of_firstInst hp hi hphi hfirst (fun heq => hnot (heq ▸ List.mem_cons_self)) ?_
      exact FlowGraph.mem_around_of_root (Option.mem_toList.2 hb)
        (hp.wellFormed.mem_blocks_iff.1 hmem).1
    exact before_of_runs hp hi hphi hbefore (firstInst_spec hp.wellFormed hfirst).1 hruns
      (fun hmem => hnot (List.mem_cons_of_mem j hmem)) (hret.trans hr)

end

end Program

namespace Subject

variable {s : Subject}

theorem Prepared.flowOf {p : Program} {c : Config} (h : s.Prepared p c)
    (hp : p.WellFormed) {i : Nat}
    (hi : i < p.insts.size) : s.flowOf i = .ofFunction p (p.funcOf i) := by
  rw [Subject.flowOf, h.program, h.flow (Program.lt_of_defined (hp.defined_funcOf hi))]

/-- Dominance between instructions, by places and by the ways control takes. -/
theorem dominates_iff {p : Program} {c : Config} (hp : s.program.Finished) (h : s.Prepared p c)
    {i j : Nat} (hj : j < s.program.insts.size) : s.dominates j i = true ↔
      s.program.funcOf j = s.program.funcOf i ∧ if s.program.blockOf j = s.program.blockOf i then
        (s.program.inst j).pos ≤ (s.program.inst i).pos
      else (FlowGraph.forward s.program (s.program.funcOf j)).Dom (s.program.blockOf j)
        (s.program.blockOf i) := by
  obtain rfl := h.program
  rw [dominates, Bool.and_eq_true, decide_eq_true_eq, h.flowOf hp.wellFormed hj]
  exact and_congr_right fun _ => Dominance.dominatesInst_iff (hp.linked.closed_forward _)

/-- Post-dominance is dominance backwards. -/
theorem postDominates_iff {p : Program} {c : Config} (hp : s.program.Finished) (h : s.Prepared p c)
    {i j : Nat} (hj : j < s.program.insts.size) : s.postDominates j i = true ↔
      s.program.funcOf j = s.program.funcOf i ∧ if s.program.blockOf j = s.program.blockOf i then
        (s.program.inst i).pos ≤ (s.program.inst j).pos
      else (FlowGraph.backward s.program (s.program.funcOf j)).Dom (s.program.blockOf j)
        (s.program.blockOf i) := by
  obtain rfl := h.program
  rw [postDominates, Bool.and_eq_true, decide_eq_true_eq, h.flowOf hp.wellFormed hj]
  exact and_congr_right fun _ => Dominance.dominatesInst_iff (hp.linked.closed_backward _)

/-- The return is not before what dominates it. -/
theorem not_before_of_dominates {p : Program} {c : Config} (hp : p.Finished) (h : s.Prepared p c)
    {f : FuncId} {i r : Nat} (hi : i ∈ p.funcInsts f) (hdom : s.dominates i r = true) :
    ¬p.Before f i r := by
  obtain rfl := h.program
  intro hbefore
  obtain ⟨hlt, hfunc⟩ := (Program.mem_funcInsts_iff hp.wellFormed).1 hi
  have hplace := ((dominates_iff hp h hlt).1 hdom).2
  split at hplace
  · next hsame =>
    rcases hbefore with ⟨hother, -⟩ | ⟨-, hpos⟩
    · exact hother hsame.symm
    · omega
  · next hother =>
    rcases hbefore with ⟨-, haround⟩ | ⟨hsame, -⟩
    · -- The block dominates in the function it belongs to.
      have hblock := hp.mem_blocks_of_reached _ hplace.reached_left
      have hsame := (hp.wellFormed.mem_blocks_iff.1 hblock).2
      rw [← hsame, hfunc] at hplace
      exact hplace.not_around haround
    · exact hother hsame.symm

/-- Every way through a function passes what dominates its return. -/
theorem mem_of_wayThrough {p : Program} {c : Config} (hp : p.Finished) (h : s.Prepared p c)
    {f : FuncId} {i r : Nat} {run : List InstId} (hway : p.WayThrough f run)
    (hi : i ∈ p.funcInsts f) (hphi : (p.op i).isPhi = false) (hr : p.returnOf f = some r)
    (hdom : s.dominates i r = true) : i ∈ run := by
  by_contra hnot
  have hlt := ((Program.mem_funcInsts_iff hp.wellFormed).1 hi).1
  exact not_before_of_dominates hp h hi hdom (hway.before_return hp hlt hphi hnot hr)

end Subject

end DataRace
