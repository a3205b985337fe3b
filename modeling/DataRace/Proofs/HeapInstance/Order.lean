import DataRace.Proofs.Detection.Recheck
import DataRace.Proofs.HeapInstance.Handed

/-!
# DataRace.Proofs.HeapInstance.Order

What the question about heap instances asks of its second instruction.

Of two instructions, one on the branch of the spawn that gets an object, the
other is taken to be on the trunk.  They use different instances unless control
may come from the spawn, in the same iteration, to where the trunk uses the
object (`HeapFlow.UsedAfter`).  When both are on the branch, the second one is
taken to be on the trunk.

* `runsInIteration_iff` — the rest of an iteration, by paths of blocks;
* `differentInstances_iff` — the answer, by the uses after the spawn;
* `differentInstances_comm_iff` — when the order makes no difference;
* `not_forall_differentInstances_comm` — two instructions of a thread for which it
  does.
-/

namespace DataRace

open Relation Std

variable {s : Subject} {p : Program} {c : Config} {i j : Nat}

/-! ## the rest of an iteration -/

namespace Subject

/-- The header of the smallest loop around an instruction. -/
def headerAround? (s : Subject) (i : InstId) : Option BlockId :=
  ((s.flowOf i).loops.loopOf (s.program.blockOf i)).map fun l => ((s.flowOf i).loops.get l).header

/-- Control may come from a spawn to an instruction without a new iteration of the loop around the
spawn: on in its block, or out of it and neither back nor through the header. -/
def RunsAfter (s : Subject) (spawn i : InstId) : Prop :=
  s.program.blockOf i = s.program.blockOf spawn ∧
      (s.program.inst spawn).pos < (s.program.inst i).pos ∨
    s.headerAround? spawn ≠ some (s.program.blockOf spawn) ∧
      TransGen (fun a b => b ∈ (s.program.block a).succs ∧ s.headerAround? spawn ≠ some b ∧
        b ≠ s.program.blockOf spawn) (s.program.blockOf spawn) (s.program.blockOf i)

theorem runsInIteration_iff (hp : s.program.Finished) {spawn : InstId}
    (hi : s.program.isInteresting i = true) :
    s.runsInIteration spawn i = true ↔ s.RunsAfter spawn i := by
  have hlt : i < s.program.insts.size := Program.lt_of_op_ne fun hop => by
    rw [Program.isInteresting, hop] at hi
    cases hi
  unfold runsInIteration
  dsimp only
  rw [Bool.or_eq_true, Bool.and_eq_true, List.contains_iff_mem, TreeSet.contains_iff_mem,
    Program.instsAfter, Cut.mem_takeWhile_drop hp hi, mem_reachable_next_iff fun hb =>
      (hp.linked.succ_spec (List.mem_filter.1 hb).1).2.1, and_iff_right hlt]
  refine or_congr_right (and_congr ?_ ?_)
  · rw [bne_iff_ne, ne_comm]
    rfl
  · simp only [List.mem_filter, Bool.and_eq_true, bne_iff_ne]
    refine iff_of_eq (congrArg (fun r => TransGen r _ _) ?_)
    funext a b
    rw [ne_comm (a := some b)]
    rfl

end Subject

/-! ## uses after a spawn -/

namespace HeapFlow

variable {x : Escape} {alloc spawn v t : Nat}

/-- The object of an allocation may be used for an instruction after a spawn in the same iteration:
by the instruction itself, or by a call that may run its function. -/
def UsedAfter (s : Subject) (flow : HeapFlow) (spawn t : InstId) : Prop :=
  t ∈ flow.accesses ∧ s.RunsAfter spawn t ∨ ∃ call ∈ flow.calls, s.RunsAfter spawn call ∧
    ∃ f ∈ s.calls.calleesAt call, s.calls.Reaches f (s.program.funcOf t)

/-- The address is used by loads, stores and calls. -/
theorem isInteresting_of_useOf {isGlobal : Bool} (h : useOf s alloc isGlobal v i = .access ∨
    useOf s alloc isGlobal v i = .call) : s.program.isInteresting i = true := by
  unfold useOf at h
  rw [Program.isInteresting]
  cases hop : s.program.op i <;> simp_all [Operation.isInteresting]

theorem isInteresting_of_mem (h : i ∈ (HeapFlow.of s x alloc).accesses ∨
    i ∈ (HeapFlow.of s x alloc).calls) : s.program.isInteresting i = true := by
  unfold HeapFlow.of at h
  dsimp only at h
  have hempty : i ∉ (∅ : IdSet) := TreeSet.not_mem_emptyc
  split at h
  · exact absurd (h.elim id id) hempty
  · split at h
    · exact absurd (h.elim id id) hempty
    · simp only [TreeSet.mem_ofList, List.contains_iff_mem, List.mem_map, List.mem_filter,
        List.mem_flatMap, decide_eq_true_eq] at h
      rcases h with ⟨_, ⟨⟨w, -, k, -, rfl⟩, huse⟩, rfl⟩ | ⟨_, ⟨⟨w, -, k, -, rfl⟩, huse⟩, rfl⟩
      · exact isInteresting_of_useOf (.inl huse)
      · exact isInteresting_of_useOf (.inr huse)

end HeapFlow

namespace Subject

variable {par : Parallelism} {x : Escape} {o : ObjId}

/-- The instruction that is taken to be on the trunk of a spawn. -/
def trunkOf (s : Subject) (par : Parallelism) (spawn i j : InstId) : InstId :=
  if (par.codeOf spawn).branch.covers s.program i then j else i

/-- Some use for an instruction comes after a spawn. -/
theorem any_runsInIteration_iff (hp : p.Finished) (h : s.Prepared p c) {alloc spawn t : InstId} :
    ((if (HeapFlow.of s x alloc).accesses.contains t then [t] else []) ++
      (HeapFlow.of s x alloc).calls.toList.filter fun call =>
        (s.calls.calleesAt call).any fun f =>
          (s.functionsFrom [f]).contains (s.program.funcOf t)).any
        (s.runsInIteration spawn) = true ↔
      HeapFlow.UsedAfter s (HeapFlow.of s x alloc) spawn t := by
  have hruns {k : InstId} (hk : k ∈ (HeapFlow.of s x alloc).accesses ∨
      k ∈ (HeapFlow.of s x alloc).calls) : s.runsInIteration spawn k = true ↔ s.RunsAfter spawn k :=
    runsInIteration_iff (h.program ▸ hp) (HeapFlow.isInteresting_of_mem hk)
  have hmeets {call : InstId} : ((s.calls.calleesAt call).any fun f =>
      (s.functionsFrom [f]).contains (s.program.funcOf t)) = true ↔
        ∃ f ∈ s.calls.calleesAt call, s.calls.Reaches f (s.program.funcOf t) := by
    rw [List.any_eq_true]
    refine exists_congr fun f => and_congr_right fun hf => ?_
    have hdef : ∀ g ∈ [f], (p.func g).isDeclaration = false := fun g hg =>
      List.mem_singleton.1 hg ▸ h.defined_of_mem_calleesAt hf
    rw [TreeSet.contains_iff_mem, h.mem_functionsFrom_iff hdef]
    simp only [List.mem_singleton, exists_eq_left]
  rw [List.any_append, Bool.or_eq_true, HeapFlow.UsedAfter]
  refine or_congr ?_ ?_
  · by_cases ht : t ∈ (HeapFlow.of s x alloc).accesses
    · simp [TreeSet.contains_iff_mem, ht, hruns (.inl ht)]
    · simp [TreeSet.contains_iff_mem, ht]
  · rw [List.any_eq_true]
    simp only [List.mem_filter, TreeSet.mem_toList, and_assoc]
    refine exists_congr fun call => and_congr_right fun hcall => ?_
    rw [hmeets, hruns (.inr hcall), and_comm]

/-- Two instructions use different instances of an object that one spawn gets if one of them is on
its branch and the other one uses none after the spawn. -/
theorem differentInstances_iff (hp : p.Finished) (h : s.Prepared p c) :
    s.differentInstances par x o i j = true ↔ ∃ alloc spawn, s.heapAllocation? o = some alloc ∧
      (HeapFlow.of s x alloc).spawn = some spawn ∧
      ((par.codeOf spawn).branch.covers s.program i = true ∨
        (par.codeOf spawn).branch.covers s.program j = true) ∧
      ¬HeapFlow.UsedAfter s (HeapFlow.of s x alloc) spawn (s.trunkOf par spawn i j) := by
  unfold differentInstances
  cases halloc : s.heapAllocation? o with
  | none => simp
  | some alloc =>
    cases hspawn : (HeapFlow.of s x alloc).spawn with
    | none => simp [hspawn]
    | some spawn =>
      simp only [hspawn, Bool.and_eq_true, Bool.or_eq_true, Bool.not_eq_true', ← Bool.not_eq_true,
        any_runsInIteration_iff hp h]
      constructor
      · exact fun hanswer => ⟨alloc, spawn, rfl, hspawn, hanswer⟩
      · rintro ⟨_, spawn', ⟨⟩, hspawn', hanswer⟩
        obtain rfl : spawn = spawn' := Option.some.inj (hspawn.symm.trans hspawn')
        exact hanswer

/-- **The order of two instructions makes no difference** to the answer exactly if, when both are on
the branch of the one spawn that gets the object, the object is used after the spawn for both of
them or for none. -/
theorem differentInstances_comm_iff (hp : p.Finished) (hs : prepare p c = .ok s) :
    s.differentInstances par x o i j = s.differentInstances par x o j i ↔
      ∀ alloc spawn, s.heapAllocation? o = some alloc →
        (HeapFlow.of s x alloc).spawn = some spawn →
        (par.codeOf spawn).branch.covers s.program i = true →
        (par.codeOf spawn).branch.covers s.program j = true →
        (HeapFlow.UsedAfter s (HeapFlow.of s x alloc) spawn i ↔
          HeapFlow.UsedAfter s (HeapFlow.of s x alloc) spawn j) := by
  have h := prepared hs
  constructor
  · intro hcomm alloc spawn halloc hspawn hi hj
    rw [Bool.eq_iff_iff, differentInstances_iff hp h, differentInstances_iff hp h] at hcomm
    simpa [halloc, hspawn, hi, hj, trunkOf, not_iff_not, iff_comm] using hcomm
  · intro hall
    by_cases hboth : s.HandedToBoth par x o i j
    · obtain ⟨alloc, spawn, halloc, hspawn, hi, hj⟩ := hboth
      have hsame := hall alloc spawn halloc hspawn hi hj
      rw [Bool.eq_iff_iff, differentInstances_iff hp h, differentInstances_iff hp h]
      simp [halloc, hspawn, hi, hj, trunkOf, hsame]
    · exact differentInstances_comm fun _ => hboth

/-- A loop hands an object to a thread and goes on; the routine writes to the object and calls a
function that does. -/
def startInLoop : List Command :=
  [.declare "worker" 1, .declare "g" 1, .declare "main" 0, .declare "thread_create" 3, .const 1,
    .const 4, .body 0, .append 0 0 (.store 1 9), .append 0 0 (.call (.direct 1) [1]),
    .append 0 0 (.ret none), .body 1, .append 1 1 (.store 3 9), .append 1 1 (.ret none),
    .body 2, .block 2, .block 2, .block 2, .append 2 2 (.alloc false 0), .append 2 2 (.load 12),
    .append 2 2 (.jump 3), .append 2 3 (.compare .slt 13 10), .append 2 3 (.branch 14 4 5),
    .append 2 4 (.alloc true 0), .append 2 4 (.call (.direct 3) [12, 0, 15])]

/-- The loop with some more behind the spawn. -/
def calledInThread (rest : List Command) : Program :=
  Builder.ofScript (startInLoop ++ rest ++ [.append 2 4 (.jump 3), .append 2 5 (.ret none)])

/-- The spawning thread does not use the object, so the writes of a thread meet those of other
threads in neither order. -/
theorem differentInstances_comm_calledInThread : ∃ s par,
    prepare (calledInThread []) {} = .ok s ∧ Parallelism.analyze s (.collect s) = .ok par ∧
    s.HandedToBoth par (.ofSubject s) 5 0 3 ∧
    s.differentInstances par (.ofSubject s) 5 0 3 =
      s.differentInstances par (.ofSubject s) 5 3 0 := by
  have heval : (prepare (calledInThread []) {}).toOption.any (fun s =>
      (Parallelism.analyze s (.collect s)).toOption.any fun par =>
        s.heapAllocation? 5 == some 10 &&
        (HeapFlow.of s (.ofSubject s) 10).spawn == some 11 &&
        (HeapFlow.of s (.ofSubject s) 10).accesses.isEmpty &&
        (HeapFlow.of s (.ofSubject s) 10).calls.isEmpty &&
        (par.codeOf 11).branch.covers s.program 0 && (par.codeOf 11).branch.covers s.program 3) =
      true := by
    decide +kernel
  obtain ⟨s, hs, heval⟩ := exists_of_any_toOption heval
  obtain ⟨par, hpar, heval⟩ := exists_of_any_toOption heval
  simp only [Bool.and_eq_true, beq_iff_eq] at heval
  obtain ⟨⟨⟨⟨⟨halloc, hspawn⟩, haccesses⟩, hcalls⟩, hi⟩, hj⟩ := heval
  have hunused (t spawn : InstId) :
      ¬HeapFlow.UsedAfter s (HeapFlow.of s (.ofSubject s) 10) spawn t := by
    rintro (⟨hmem, -⟩ | ⟨call, hmem, -⟩)
    · exact TreeSet.isEmpty_iff_forall_not_mem.1 haccesses t hmem
    · exact TreeSet.isEmpty_iff_forall_not_mem.1 hcalls call hmem
  refine ⟨s, par, hs, hpar, ⟨10, 11, halloc, hspawn, hi, hj⟩,
    (differentInstances_comm_iff (Builder.finished_ofScript (by decide +kernel)) hs).2 ?_⟩
  intro alloc spawn halloc' _ _ _
  obtain rfl : 10 = alloc := Option.some.inj (halloc.symm.trans halloc')
  exact iff_of_false (hunused 0 spawn) (hunused 3 spawn)

/-- When both instructions are on the branch, the answer depends on their order. -/
theorem not_forall_differentInstances_comm : ¬∀ (p : Program) (c : Config) (s : Subject)
    (par : Parallelism) (o : ObjId) (i j : InstId), p.Finished → prepare p c = .ok s →
    Parallelism.analyze s (.collect s) = .ok par →
      s.differentInstances par (.ofSubject s) o i j =
        s.differentInstances par (.ofSubject s) o j i := by
  intro hall
  have heval : (prepare (calledInThread [.append 2 4 (.call (.direct 1) [15])]) {}).toOption.any
      (fun s => (Parallelism.analyze s (.collect s)).toOption.any fun par =>
        !s.differentInstances par (.ofSubject s) 5 0 3 &&
          s.differentInstances par (.ofSubject s) 5 3 0) = true := by
    decide +kernel
  obtain ⟨s, hs, heval⟩ := exists_of_any_toOption heval
  obtain ⟨par, hpar, heval⟩ := exists_of_any_toOption heval
  rw [Bool.and_eq_true, Bool.not_eq_true'] at heval
  have hcomm := hall _ _ s par 5 0 3 (Builder.finished_ofScript (by decide +kernel)) hs hpar
  rw [heval.1, heval.2] at hcomm
  cases hcomm

end Subject

end DataRace
