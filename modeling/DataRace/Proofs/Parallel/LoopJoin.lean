import DataRace.Proofs.Flow.Loop
import DataRace.Proofs.Parallel.Join
import DataRace.Proofs.Program.Script

/-!
# DataRace.Proofs.Parallel.LoopJoin

Which joins stand for a spawn in a loop.

One join waits for one thread, so a join outside the loop of a spawn should
not stand for it.  What is compared are the loops recorded for the two sites,
and a loop is recorded only where the thread id moves with an induction
variable (`Subject.Walks`).  So a join is never taken if the thread id of the
spawn moves, and otherwise it is taken as if both sites were outside loops
(`mem_blockers_iff_of_loop`).

* `Parallelism.mem_blockers_iff` — what blocks the code beside a spawn;
* `Parallelism.not_forall_not_mem_blockers` — one join for a loop of spawns.
-/

namespace DataRace

open Std

/-! ## blockers -/

namespace JoinMatch

variable {s : Subject} {spawn join : ThreadSite}

/-- In the function of the spawn a join blocks the code after it if the recorded loops agree. -/
theorem blocker?_eq_inst_iff (hfunc : s.program.funcOf join.site = s.program.funcOf spawn.site)
    {k : InstId} : blocker? s spawn join = .ok (some (.inst k)) ↔ k = join.site ∧
      spawn.loop = join.loop ∧
      ∃ x y, spawn.tidPtr = some x ∧ join.tidPtr = some y ∧ s.pointers.mayAlias x y = true := by
  rw [blocker?_eq_some_iff hfunc]
  by_cases hloop : spawn.loop = join.loop
  · simp [hloop]
  · simp [hloop]

end JoinMatch

namespace Parallelism

variable {p : Program} {c : Config} {s : Subject} {par : Parallelism} {i j : Nat}

/-- What blocks the code of a function beside the threads of a spawn. -/
theorem mem_blockers_iff (hpar : analyze s (.collect s) = .ok par)
    (hspawn : i ∈ (Operations.collect s).spawns) {f : FuncId} {b : Blocker} :
    b ∈ (par.matched.getD i {}).blockersIn f ↔ ∃ t u, ThreadSite.of s i = .ok t ∧
      u.site ∈ (Operations.collect s).joins ∧ ThreadSite.of s u.site = .ok u ∧
      s.program.funcOf u.site = f ∧ JoinMatch.blocker? s t u = .ok (some b) := by
  obtain ⟨spawns, joins, t, found, -, hjoins, ht, hmatch, -⟩ := analyze_spec hpar hspawn
  rw [JoinMatch.mem_blockersIn_iff hjoins hmatch]
  constructor
  · rintro ⟨u, hu⟩
    exact ⟨t, u, ht, hu⟩
  · rintro ⟨t', u, ht', hu⟩
    cases ht.symm.trans ht'
    exact ⟨u, hu⟩

/-- **A join outside a loop of spawns stands for them exactly if** their thread ids may be the same,
that of the spawn does not move, and that of the join does not move in a loop. -/
theorem mem_blockers_iff_of_loop (hp : p.Finished) (hs : Subject.prepare p c = .ok s)
    (hpar : analyze s (.collect s) = .ok par) (hspawn : i ∈ (Operations.collect s).spawns)
    (hjoin : j ∈ (Operations.collect s).joins) (hfunc : p.funcOf j = p.funcOf i) {l : LoopId}
    (hl : l ∈ (s.flowOf i).loops.around (p.blockOf i))
    (hout : p.blockOf j ∉ ((s.flowOf i).loops.get l).blocks) :
    .inst j ∈ (par.matched.getD i {}).blockersIn (p.funcOf i) ↔
      (∃ x y, ThreadSite.tidPointer? p i = some x ∧ ThreadSite.tidPointer? p j = some y ∧
        s.pointers.mayAlias x y = true) ∧
      ¬s.Walks i ∧ (s.Walks j → (s.flowOf j).loops.loopOfInst p j = none) := by
  have h := Subject.prepared hs
  obtain rfl := h.program
  have hi : i < s.program.insts.size := Program.lt_of_isCall
    (Program.isCall_of_libraryCall (eq_of_beq (List.mem_filter.1 hspawn).2))
  have hflow := h.flowOf hp.wellFormed hi
  have hflow' : s.flowOf j = s.flowOf i := by rw [Subject.flowOf, hfunc, Subject.flowOf]
  rw [hflow] at hl hout
  obtain ⟨k, hk, hsub⟩ := Loops.loopOf_spec hp hl
  rw [mem_blockers_iff hpar hspawn]
  constructor
  · rintro ⟨t, u, ht, -, hu, hf, hb⟩
    obtain rfl := (ThreadSite.gathered ht).site
    have htid := (ThreadSite.gathered ht).tidPtr
    obtain ⟨rfl, hsame, x, y, hx, hy, halias⟩ := (JoinMatch.blocker?_eq_inst_iff hf).1 hb
    have hutid := (ThreadSite.gathered hu).tidPtr
    refine ⟨⟨x, y, htid ▸ hx, hutid ▸ hy, halias⟩, ?_⟩
    rcases (ThreadSite.gathered ht).loop_cases with ⟨-, hloop⟩ | ⟨hstill, hloop⟩
    · -- the join would have to be in the smallest loop around the spawn
      rw [hflow] at hloop
      rcases (ThreadSite.gathered hu).loop_cases with ⟨-, hloop'⟩ | ⟨-, hloop'⟩
      · rw [hflow', hflow, ← hsame, hloop] at hloop'
        have hmem := Loops.mem_around_iff.1 (Loops.mem_around_of_loopOf (hloop'.symm.trans hk))
        exact absurd (hsub _ hmem.2) hout
      · cases hk.symm.trans (hloop.symm.trans (hsame.trans hloop'))
    · refine ⟨hstill, fun hmoves => ?_⟩
      rcases (ThreadSite.gathered hu).loop_cases with ⟨-, hloop'⟩ | ⟨hstill', -⟩
      · exact hloop'.symm.trans (hsame.symm.trans hloop)
      · exact absurd hmoves hstill'
  · rintro ⟨⟨x, y, hx, hy, halias⟩, hstill, hstraight⟩
    obtain ⟨-, -, t, -, -, -, ht, -⟩ := analyze_spec hpar hspawn
    obtain ⟨u, hu⟩ := exists_site_of_join hpar hjoin
    obtain rfl := (ThreadSite.gathered ht).site
    obtain rfl := (ThreadSite.gathered hu).site
    have htid := (ThreadSite.gathered ht).tidPtr
    have hutid := (ThreadSite.gathered hu).tidPtr
    refine ⟨t, u, ht, hjoin, hu, hfunc, (JoinMatch.blocker?_eq_inst_iff hfunc).2
      ⟨rfl, ?_, x, y, htid.trans hx, hutid.trans hy, halias⟩⟩
    have hnone := (((ThreadSite.gathered ht).loop_cases).resolve_left fun h => hstill h.1).2
    rcases (ThreadSite.gathered hu).loop_cases with ⟨hmoves, hloop⟩ | ⟨-, hloop⟩
    · rw [hnone, hloop, hstraight hmoves]
    · rw [hnone, hloop]

/-- A loop starts a thread for every entry of an array of thread ids, and one of them is joined
behind the loop. -/
def movingThreadId : List Command :=
  [.global "t" 4, .declare "main" 0, .declare "worker" 1, .declare "thread_create" 3,
    .declare "thread_join" 2, .const 0, .const 1, .const 4,
    .body 1, .append 1 0 (.ret none),
    .body 0, .block 0, .block 0, .append 0 1 (.jump 2),
    .append 0 2 (.phi []), .append 0 2 (.project 0 none (some 14)),
    .append 0 2 (.call (.direct 2) [15, 2, 11]), .append 0 2 (.arith .add 14 12),
    .append 0 2 (.compare .slt 17 13), .append 0 2 (.branch 18 2 3),
    .incoming 14 11 1, .incoming 14 17 2,
    .append 0 3 (.load 0), .append 0 3 (.call (.direct 3) [19, 11]), .append 0 3 (.ret none)]

/-- The thread id of the spawn moves, so the join does not stand for it. -/
theorem not_mem_blockers_movingThreadId : ∃ s par,
    Subject.prepare (Builder.ofScript movingThreadId) {} = .ok s ∧
    analyze s (.collect s) = .ok par ∧ 4 ∈ (Operations.collect s).spawns ∧
    9 ∈ (Operations.collect s).joins ∧ s.pointers.mayAlias 15 0 = true ∧
    .inst 9 ∉ (par.matched.getD 4 {}).blockersIn 0 := by
  have hfin : (Builder.ofScript movingThreadId).Finished :=
    Builder.finished_ofScript (by decide +kernel)
  have hrun : (Subject.prepare (Builder.ofScript movingThreadId) {}).toOption.any (fun s =>
      (analyze s (.collect s)).toOption.any (fun _ => true) ∧ 4 ∈ (Operations.collect s).spawns ∧
      9 ∈ (Operations.collect s).joins ∧ s.pointers.mayAlias 15 0 = true ∧
      0 ∈ (s.flowOf 4).loops.around (s.program.blockOf 4) ∧
      s.program.blockOf 9 ∉ ((s.flowOf 4).loops.get 0).blocks ∧
      (Induction.recurrence s.program (s.flowOf 4).loops 14).toOption.any (·.isSome)) = true := by
    decide +kernel
  obtain ⟨s, hs, hrun⟩ := exists_of_any_toOption hrun
  obtain ⟨hrun, hspawn, hjoin, halias, hl, hout, hrec⟩ := of_decide_eq_true hrun
  obtain ⟨par, hpar, -⟩ := exists_of_any_toOption hrun
  obtain ⟨o, ho, hrec⟩ := exists_of_any_toOption hrec
  obtain ⟨r, rfl⟩ := Option.isSome_iff_exists.1 hrec
  have hprog := (Subject.prepared hs).program
  rw [hprog] at hl hout
  have hmoves : s.Walks 4 := by
    refine ⟨15, 14, r, ?_, ?_, ho⟩ <;> rw [hprog] <;> decide +kernel
  have hfunc : (Builder.ofScript movingThreadId).funcOf 9 =
      (Builder.ofScript movingThreadId).funcOf 4 := by decide +kernel
  have hiff := mem_blockers_iff_of_loop hfin hs hpar hspawn hjoin hfunc hl hout
  have hmain : (Builder.ofScript movingThreadId).funcOf 4 = 0 := by decide +kernel
  rw [hmain] at hiff
  exact ⟨s, par, hs, hpar, hspawn, hjoin, halias, fun hmem => (hiff.1 hmem).2.1 hmoves⟩

/-- A loop starts threads under one thread id.  Behind the loop one of them is joined before a
global is written. -/
def fixedThreadId : List Command :=
  [.global "t" 0, .global "n" 0, .declare "main" 0, .declare "worker" 1,
    .declare "thread_create" 3, .declare "thread_join" 2, .const 0,
    .body 1, .append 1 0 (.ret none),
    .body 0, .block 0, .block 0, .append 0 1 (.jump 2),
    .append 0 2 (.call (.direct 2) [0, 3, 12]), .append 0 2 (.load 1),
    .append 0 2 (.compare .eq 14 12), .append 0 2 (.branch 15 2 3),
    .append 0 3 (.load 0), .append 0 3 (.call (.direct 3) [16, 12]), .append 0 3 (.store 1 12),
    .append 0 3 (.ret none)]

/-- A join may stand for a loop of spawns that it is not in. -/
theorem not_forall_not_mem_blockers : ¬∀ (p : Program) (c : Config) (s : Subject)
    (par : Parallelism), p.Finished → Subject.prepare p c = .ok s →
    analyze s (.collect s) = .ok par → ∀ i ∈ (Operations.collect s).spawns,
    ∀ l ∈ (s.flowOf i).loops.around (p.blockOf i), ∀ j ∈ (Operations.collect s).joins,
    p.funcOf j = p.funcOf i → p.blockOf j ∉ ((s.flowOf i).loops.get l).blocks →
      .inst j ∉ (par.matched.getD i {}).blockersIn (p.funcOf i) := by
  intro hall
  have hfin : (Builder.ofScript fixedThreadId).Finished :=
    Builder.finished_ofScript (by decide +kernel)
  have hrun : (Subject.prepare (Builder.ofScript fixedThreadId) {}).toOption.any (fun s =>
      (analyze s (.collect s)).toOption.any (fun par =>
        Blocker.inst 7 ∈ (par.matched.getD 2 {}).blockersIn (s.program.funcOf 2)) ∧
      2 ∈ (Operations.collect s).spawns ∧ 7 ∈ (Operations.collect s).joins ∧
      0 ∈ (s.flowOf 2).loops.around (s.program.blockOf 2) ∧
      s.program.blockOf 7 ∉ ((s.flowOf 2).loops.get 0).blocks) = true := by
    decide +kernel
  obtain ⟨s, hs, hrun⟩ := exists_of_any_toOption hrun
  obtain ⟨hrun, hspawn, hjoin, hl, hout⟩ := of_decide_eq_true hrun
  obtain ⟨par, hpar, hmem⟩ := exists_of_any_toOption hrun
  rw [(Subject.prepared hs).program] at hl hout hmem
  exact hall _ {} s par hfin hs hpar 2 hspawn 0 hl 7 hjoin (by decide +kernel) hout
    (of_decide_eq_true hmem)

end Parallelism

end DataRace
