import DataRace.Program.Library
import DataRace.Proofs.Program.Finished

/-!
# DataRace.Proofs.Program.Library

What is known about a recognised library call: it is a call of the program
with arguments among its values, and its arguments tell what it does.
-/

namespace DataRace

namespace Program

variable {p : Program}

/-- Only thread starts have a routine among their arguments. -/
theorem isThreadStart_of_routine {i v : Nat} (h : p.routine i = some v) :
    p.isThreadStart i = true := by
  have hlib : ∀ e ∈ library, e.routine.isSome → e.kind = .spawn ∨ e.kind = .parallelFor := by decide
  unfold routine entryArg at h
  cases he : p.callEntry? i with
  | none => simp [he] at h
  | some e =>
    cases hr : e.routine with
    | none => simp [he, hr] at h
    | some k =>
      have hmem : e ∈ library := by
        unfold callEntry? at he
        obtain ⟨f, -, hf⟩ := Option.bind_eq_some_iff.1 he
        unfold libraryEntry? at hf
        split at hf
        · exact List.mem_of_find?_eq_some hf
        · cases hf
      obtain hk | hk := hlib e hmem (by rw [hr]; rfl)
      · simp [isThreadStart, isSpawn, libraryCall?, he, hk]
      · simp [isThreadStart, isParallelFor, libraryCall?, he, hk]

theorem lt_of_op_ne {i : Nat} (h : p.op i ≠ .alloc false 0) : i < p.insts.size := by
  by_contra hle
  exact h (op_of_size_le (Nat.le_of_not_lt hle))

theorem lt_of_directCallee {i f : Nat} (h : p.directCallee i = some f) : i < p.insts.size := by
  refine lt_of_op_ne fun hop => ?_
  rw [directCallee, hop] at h
  cases h

/-- A recognised call names the library function it is recognised by. -/
theorem exists_of_libraryCall? {i : Nat} {k : LibraryCall} (h : p.libraryCall? i = some k) :
    ∃ f, p.directCallee i = some f ∧ p.libraryFunc? f = some k := by
  obtain ⟨e, he, hk⟩ := Option.map_eq_some_iff.1 h
  obtain ⟨f, hf, hlib⟩ := Option.bind_eq_some_iff.1 he
  exact ⟨f, hf, by rw [libraryFunc?, hlib, Option.map_some, hk]⟩

theorem lt_of_entryArg {i v : Nat} {pick : LibraryEntry → Option Nat}
    (h : p.entryArg i pick = some v) : i < p.insts.size := by
  unfold entryArg at h
  obtain ⟨e, he, -⟩ := Option.bind_eq_some_iff.1 h
  obtain ⟨f, hf, -⟩ := Option.bind_eq_some_iff.1 he
  exact lt_of_directCallee hf

theorem isCall_of_directCallee {i f : Nat} (h : p.directCallee i = some f) :
    (p.op i).isCall = true := by
  unfold directCallee at h
  split at h
  · next hop => rw [hop]; rfl
  · cases h

theorem isCall_of_libraryCall {i : InstId} {k : LibraryCall} (h : p.libraryCall? i = some k) :
    (p.op i).isCall = true := by
  obtain ⟨f, hf, -⟩ := exists_of_libraryCall? h
  exact isCall_of_directCallee hf

theorem isCall_of_isThreadStart {i : InstId} (h : p.isThreadStart i = true) :
    (p.op i).isCall = true := by
  rcases Bool.or_eq_true_iff.1 h with hspawn | hparallel
  · exact isCall_of_libraryCall (eq_of_beq hspawn)
  · exact isCall_of_libraryCall (eq_of_beq hparallel)

theorem lt_of_isCall {i : Nat} (h : (p.op i).isCall = true) : i < p.insts.size :=
  lt_of_op_ne fun hop => by rw [hop] at h; cases h

/-- A call with a lock argument takes or releases it. -/
theorem isUnlock_of_lockPtr {i : InstId} {v : ValueId} (h : p.lockPtr i = some v) :
    p.isUnlock i = !p.isLock i := by
  simp only [lockPtr, mainArg, entryArg, bind, Option.bind_eq_some_iff] at h
  obtain ⟨e, he, k, hk, -⟩ := h
  have hcall : p.libraryCall? i = some e.kind := by rw [libraryCall?, he, Option.map_some]
  rw [isUnlock, isLock, hcall]
  cases hkind : e.kind <;> simp_all

theorem isMemoryCall_of_isSpawn {i : InstId} (h : p.isSpawn i = true) :
    p.isMemoryCall i = false := by
  unfold isMemoryCall
  rw [eq_of_beq h]

theorem mem_operands_of_mem_callArgs {i v : Nat} (h : v ∈ p.callArgs i) :
    v ∈ (p.op i).operands := by
  unfold callArgs at h
  split at h
  · next target args hop =>
    rw [hop]
    cases target with
    | direct f => exact h
    | indirect w => exact List.mem_append_left _ h
  · cases h

section

variable (hp : p.WellFormed)

include hp

theorem callArgs_lt {i v : Nat} (h : v ∈ p.callArgs i) : v < p.values.size :=
  hp.operand_lt (mem_operands_of_mem_callArgs h)

theorem entryArg_lt {i v : Nat} {pick : LibraryEntry → Option Nat}
    (h : p.entryArg i pick = some v) : v < p.values.size := by
  unfold entryArg at h
  obtain ⟨e, -, h⟩ := Option.bind_eq_some_iff.1 h
  obtain ⟨k, -, h⟩ := Option.bind_eq_some_iff.1 h
  exact callArgs_lt hp (List.mem_of_getElem? h)

theorem result_lt {i v : Nat} (h : p.result i = some v) : v < p.values.size :=
  (hp.result_iff.1 h).1

end

end Program

end DataRace
