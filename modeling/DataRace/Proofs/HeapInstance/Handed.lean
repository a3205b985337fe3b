import DataRace.HeapInstance
import DataRace.Proofs.Flow.Loop
import DataRace.Proofs.Program.Library
import DataRace.Proofs.Program.Script
import DataRace.Proofs.Subject

/-!
# DataRace.Proofs.HeapInstance.Handed

Which spawns get the address of an allocation.

The address goes through casts, projections and phis (`HeapFlow.Carries`), and
the values it is followed to are at least these.  A spawn that gets one of them
counts only if it stands in the loop of the allocation and its argument is made
by casts and projections alone (`HeapFlow.Counts`); another one is passed over
as if it got nothing.

* `mem_values_of_carries` — no value made of the address is missed;
* `spawn_unique_iff` — the spawn that was found is the only one that gets the
  address exactly if every spawn that does counts;
* `not_forall_spawn_unique` — a phi hides the second spawn of a loop.
-/

namespace DataRace

open Std

/-- What escapes in a program. -/
def Escape.ofSubject (s : Subject) : Escape := .of s (.collect s) (.of s (.collect s))

namespace HeapFlow

/-- The values that casts, projections and phis make of an address. -/
inductive Carries (p : Program) (addr : ValueId) : ValueId → Prop
  | address : Carries p addr addr
  | cast {i v w : Nat} : Carries p addr v → p.op i = .cast v → p.result i = some w →
      Carries p addr w
  | project {i v w : Nat} {k : Option Nat} {idx : Option ValueId} : Carries p addr v →
      p.op i = .project v k idx → p.result i = some w → Carries p addr w
  | phi {i v w b : Nat} {ins : List (ValueId × BlockId)} : Carries p addr v → p.op i = .phi ins →
      (v, b) ∈ ins → p.result i = some w → Carries p addr w

/-- A spawn hands a value made of the result of an allocation in its function to its thread. -/
structure Hands (p : Program) (alloc spawn : InstId) : Prop where
  isSpawn : p.isSpawn spawn = true
  sameFunc : p.funcOf spawn = p.funcOf alloc
  carries : ∃ addr v, p.result alloc = some addr ∧ p.routineArg spawn = some v ∧ Carries p addr v

/-- A spawn stands in the loop of an allocation, and its argument is made of the result by casts and
projections alone. -/
structure Counts (s : Subject) (alloc spawn : InstId) : Prop where
  sameLoop : (s.flowOf alloc).loops.loopOfInst s.program spawn =
    (s.flowOf alloc).loops.loopOfInst s.program alloc
  isMade : (s.program.routineArg spawn).any (isMadeOf s.program alloc) = true

instance (s : Subject) (alloc spawn : InstId) : Decidable (Counts s alloc spawn) :=
  decidable_of_iff ((s.flowOf alloc).loops.loopOfInst s.program spawn =
      (s.flowOf alloc).loops.loopOfInst s.program alloc ∧
      (s.program.routineArg spawn).any (isMadeOf s.program alloc) = true)
    ⟨fun h => ⟨h.1, h.2⟩, fun h => ⟨h.sameLoop, h.isMade⟩⟩

variable {s : Subject} {x : Escape} {p : Program} {alloc spawn addr v i : Nat}

/-! ## the values that are followed -/

/-- What an operation other than a memory access, a return or a call makes of a value is
followed. -/
theorem mem_values_of_result (hp : p.Finished) (hv : v ∈ values p addr) {w : Nat}
    (hmem : v ∈ (p.op i).operands) (hr : p.result i = some w)
    (hkind : (p.op i).isInteresting = false ∧ (p.op i).isReturn = false) : w ∈ values p addr := by
  obtain ⟨hlt, hdef⟩ := hp.wellFormed.result_iff.1 hr
  have hi : i < p.insts.size := Program.lt_of_op_ne fun hop => by
    rw [hop] at hmem
    cases hmem
  refine mem_reachable_of_next hv ?_ hlt
  refine List.mem_filterMap.2 ⟨i, hp.linked.mem_users_iff.2 ⟨hi, hmem⟩, ?_⟩
  cases hop : p.op i <;> simp_all [Operation.isInteresting, Operation.isReturn]

/-- The address is followed through casts, projections and phis. -/
theorem mem_values_of_carries (hp : p.Finished) (haddr : addr < p.values.size)
    (h : Carries p addr v) : v ∈ values p addr := by
  induction h with
  | address => exact mem_reachable_of_start List.mem_cons_self haddr
  | cast _ hop hr ih =>
    exact mem_values_of_result hp ih (by simp [hop, Operation.operands]) hr
      (by rw [hop]; exact ⟨rfl, rfl⟩)
  | project _ hop hr ih =>
    exact mem_values_of_result hp ih (by simp [hop, Operation.operands]) hr
      (by rw [hop]; exact ⟨rfl, rfl⟩)
  | phi _ hop hin hr ih =>
    refine mem_values_of_result hp ih ?_ hr (by rw [hop]; exact ⟨rfl, rfl⟩)
    rw [hop]
    exact List.mem_map_of_mem hin

/-! ## the spawns that count -/

/-- Whether a user counts as a spawn does not depend on the value it uses. -/
theorem useOf_eq_spawn_iff {isGlobal : Bool} : useOf s alloc isGlobal v i = .spawn ↔
    s.program.isSpawn i = true ∧ Counts s alloc i := by
  have haccess {b : Bool} : (if b = true then HeapUse.access else .none) ≠ .spawn := by
    cases b <;> simp
  have hcall (h : s.program.isSpawn i = true) : ∃ t as, s.program.op i = .call t as := by
    have hop := Program.isCall_of_libraryCall (eq_of_beq h)
    cases heq : s.program.op i <;> simp_all [Operation.isCall]
  unfold useOf
  dsimp only
  constructor
  · intro h
    split at h
    · split at h
      · cases h
      · exact absurd h haccess
    · exact absurd h haccess
    · cases h
    · split at h
      · cases h
      · split at h
        · next hspawn =>
          split at h
          · next hcounts =>
            rw [Bool.and_eq_true, beq_iff_eq] at hcounts
            exact ⟨hspawn, ⟨hcounts.1, hcounts.2⟩⟩
          · cases h
        · split at h <;> cases h
    · cases h
  · rintro ⟨hspawn, hcounts⟩
    obtain ⟨t, as, hop⟩ := hcall hspawn
    have hboth : ((s.flowOf alloc).loops.loopOfInst s.program i ==
        (s.flowOf alloc).loops.loopOfInst s.program alloc &&
          (s.program.routineArg i).any (isMadeOf s.program alloc)) = true := by
      rw [Bool.and_eq_true, beq_iff_eq]
      exact ⟨hcounts.sameLoop, hcounts.isMade⟩
    simp only [hop, Program.isMemoryCall_of_isSpawn hspawn, hspawn, hboth, Bool.false_eq_true,
      if_false, if_true]

/-- A spawn that was found is the only one that counts among the users of the values. -/
theorem eq_spawn_iff (h : (HeapFlow.of s x alloc).spawn = some spawn) :
    ∃ addr, s.program.result alloc = some addr ∧ ∀ i, i = spawn ↔
      (∃ v ∈ values s.program addr, i ∈ s.program.users v) ∧ s.program.isSpawn i = true ∧
        Counts s alloc i := by
  unfold HeapFlow.of at h
  dsimp only at h
  split at h
  · cases h
  · next addr haddr =>
    refine ⟨addr, haddr, fun i => ?_⟩
    split at h
    · cases h
    · have hlist := single?_eq_some_iff.1 h
      have hmem : i = spawn ↔ i ∈ [spawn] := List.mem_singleton.symm
      rw [hmem, ← hlist]
      simp only [List.mem_map, List.mem_filter, List.mem_flatMap, TreeSet.mem_toList,
        decide_eq_true_eq]
      constructor
      · rintro ⟨_, ⟨⟨v, hv, k, hk, rfl⟩, huse⟩, rfl⟩
        exact ⟨⟨v, hv, hk⟩, useOf_eq_spawn_iff.1 huse⟩
      · rintro ⟨⟨v, hv, hi⟩, hcounts⟩
        exact ⟨_, ⟨⟨v, hv, i, hi, rfl⟩, useOf_eq_spawn_iff.2 hcounts⟩, rfl⟩

/-- The argument of the routine is an operand of the spawn. -/
theorem mem_users_of_routineArg (hp : p.Finished) (h : p.routineArg i = some v) :
    i ∈ p.users v := by
  refine hp.linked.mem_users_iff.2 ⟨Program.lt_of_entryArg h, ?_⟩
  obtain ⟨e, -, h⟩ := Option.bind_eq_some_iff.1 h
  obtain ⟨k, -, h⟩ := Option.bind_eq_some_iff.1 h
  exact Program.mem_operands_of_mem_callArgs (List.mem_of_getElem? h)

/-- **The only spawn that gets the address.**  When a spawn was found for an allocation, no other
one of the function gets a value made of the address exactly if every spawn that gets one stands in
the loop of the allocation and gets it by casts and projections alone. -/
theorem spawn_unique_iff (hp : s.program.Finished)
    (hspawn : (HeapFlow.of s x alloc).spawn = some spawn) :
    (∀ i, i ≠ spawn → ¬Hands s.program alloc i) ↔ ∀ i, Hands s.program alloc i →
      Counts s alloc i := by
  obtain ⟨addr, haddr, hiff⟩ := eq_spawn_iff hspawn
  constructor
  · intro hunique i hi
    by_cases heq : i = spawn
    · exact ((hiff i).1 heq).2.2
    · exact absurd hi (hunique i heq)
  · intro hcounts i hne hi
    obtain ⟨addr', v, haddr', harg, hcarries⟩ := hi.carries
    obtain rfl : addr = addr' := Option.some.inj (haddr.symm.trans haddr')
    have hlt := (hp.wellFormed.result_iff.1 haddr).1
    refine hne ((hiff i).2 ⟨⟨v, ?_, mem_users_of_routineArg hp harg⟩, hi.isSpawn, hcounts i hi⟩)
    exact mem_values_of_carries hp hlt hcarries

/-- A loop allocates an object and hands the address of a field to a thread. -/
def fieldPerThread : Program := Builder.ofScript
  [.declare "worker" 1, .declare "main" 0, .declare "thread_create" 3, .const 1, .const 4,
    .body 0, .append 0 0 (.store 1 7), .append 0 0 (.ret none),
    .body 1, .block 1, .block 1, .block 1, .append 1 1 (.alloc false 0), .append 1 1 (.load 9),
    .append 1 1 (.jump 2), .append 1 2 (.compare .slt 10 8), .append 1 2 (.branch 11 3 4),
    .append 1 3 (.alloc true 2), .append 1 3 (.project 12 (some 1) none), .append 1 3 (.cast 13),
    .append 1 3 (.call (.direct 2) [9, 0, 14]), .append 1 3 (.jump 2), .append 1 4 (.ret none)]

/-- Only the spawn in the loop gets the address. -/
theorem spawn_unique_fieldPerThread : ∃ s, Subject.prepare fieldPerThread {} = .ok s ∧
    (HeapFlow.of s (.ofSubject s) 7).spawn = some 10 ∧ ∀ i, i ≠ 10 → ¬Hands s.program 7 i := by
  have heval : (Subject.prepare fieldPerThread {}).toOption.any (fun s =>
      (HeapFlow.of s (.ofSubject s) 7).spawn == some 10 && s.program.instIds.all fun i =>
        !s.program.isSpawn i || decide (Counts s 7 i)) = true := by
    decide +kernel
  obtain ⟨s, hs, heval⟩ := exists_of_any_toOption heval
  rw [Bool.and_eq_true, beq_iff_eq, List.all_eq_true] at heval
  obtain ⟨hspawn, hall⟩ := heval
  have hp : s.program.Finished := by
    rw [(Subject.prepared hs).program]
    exact Builder.finished_ofScript (by decide +kernel)
  refine ⟨s, hs, hspawn, (spawn_unique_iff hp hspawn).2 fun i hi => ?_⟩
  obtain ⟨-, v, -, harg, -⟩ := hi.carries
  have hcounts := hall i (List.mem_range.2 (Program.lt_of_entryArg harg))
  simpa [hi.isSpawn] using hcounts

/-- A loop hands an object to a thread, and through a phi to a second one. -/
def secondByPhi : Program := Builder.ofScript
  [.declare "first" 1, .declare "second" 1, .declare "main" 0, .declare "thread_create" 3, .const 1,
    .const 4, .body 0, .append 0 0 (.store 1 9), .append 0 0 (.ret none),
    .body 1, .append 1 1 (.store 3 9), .append 1 1 (.ret none),
    .body 2, .block 2, .block 2, .block 2, .block 2, .append 2 2 (.alloc false 0),
    .append 2 2 (.load 11), .append 2 2 (.jump 3), .append 2 3 (.compare .slt 12 10),
    .append 2 3 (.branch 13 4 6), .append 2 4 (.alloc true 0),
    .append 2 4 (.call (.direct 3) [11, 0, 14]), .append 2 4 (.jump 5),
    .append 2 5 (.phi [(14, 4)]),
    .append 2 5 (.call (.direct 3) [11, 2, 16]), .append 2 5 (.jump 3), .append 2 6 (.ret none)]

/-- A spawn that gets the address through a phi is passed over, so that another one is taken for the
only one. -/
theorem not_forall_spawn_unique :
    ¬∀ (p : Program) (c : Config) (s : Subject) (alloc spawn : InstId),
    p.Finished → Subject.prepare p c = .ok s →
      (HeapFlow.of s (.ofSubject s) alloc).spawn = some spawn →
      ∀ i, i ≠ spawn → ¬Hands s.program alloc i := by
  intro hall
  have heval : (Subject.prepare secondByPhi {}).toOption.any (fun s =>
      (HeapFlow.of s (.ofSubject s) 9).spawn == some 10) = true := by
    decide +kernel
  obtain ⟨s, hs, heval⟩ := exists_of_any_toOption heval
  refine hall _ _ s 9 10 (Builder.finished_ofScript (by decide +kernel)) hs (beq_iff_eq.1 heval) 13
    (by decide) ?_
  rw [(Subject.prepared hs).program]
  refine ⟨by decide +kernel, by decide +kernel, 14, 16, by decide +kernel, by decide +kernel, ?_⟩
  have hop : secondByPhi.op 12 = .phi [(14, 4)] := by decide +kernel
  exact .phi .address hop List.mem_cons_self (by decide +kernel)

end HeapFlow

end DataRace
