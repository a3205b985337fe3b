import DataRace.Proofs.Program.Finished
import Mathlib.Logic.Relation

/-!
# DataRace.Proofs.Flow.Run

How control passes through the instructions of a function.

Inside a block control goes from one instruction to the next.  From the end of
a block it goes to a successor; the phis there belong to the edge, so the first
instruction that runs is the one after them.

* `Program.Follows` is one step of control, `Program.Runs` a sequence of steps;
* `firstInst_spec`, `nextInst_spec` — where the two kinds of steps lead;
* `eq_of_nextInst_eq`, `firstInst_ne_of_nextInst` — an instruction inside a block
  is entered from the one before it only.
-/

namespace DataRace

namespace Program

/-- Control passes from one instruction to another. -/
def Follows (p : Program) (i j : InstId) : Prop :=
  if (p.op i).isTerminator then ∃ b ∈ (p.block (p.blockOf i)).succs, p.firstInst b = some j
  else p.nextInst i = some j

instance (p : Program) (i j : InstId) : Decidable (p.Follows i j) :=
  inferInstanceAs (Decidable (if (p.op i).isTerminator then
    ∃ b ∈ (p.block (p.blockOf i)).succs, p.firstInst b = some j else p.nextInst i = some j))

/-- Control passes through the instructions one after another. -/
def Runs (p : Program) (is : List InstId) : Prop := is.IsChain p.Follows

instance (p : Program) (is : List InstId) : Decidable (p.Runs is) :=
  inferInstanceAs (Decidable (is.IsChain p.Follows))

/-- The instruction that a function starts with. -/
def start? (p : Program) (f : FuncId) : Option InstId := (p.func f).entry.bind p.firstInst

/-- No block leads back to itself. -/
def Acyclic (p : Program) : Prop :=
  ∀ b, ¬Relation.TransGen (fun a c => c ∈ (p.block a).succs) b b

variable {p : Program}

theorem acyclic_of_lt (h : ∀ b < p.blocks.size, ∀ c ∈ (p.block b).succs, b < c) : p.Acyclic := by
  have hstep {a c : Nat} (hac : c ∈ (p.block a).succs) : a < c := by
    by_cases ha : a < p.blocks.size
    · exact h a ha c hac
    · rw [block_of_size_le (Nat.le_of_not_lt ha)] at hac
      cases hac
  have hlt {a c : Nat} (hac : Relation.TransGen (fun a c => c ∈ (p.block a).succs) a c) :
      a < c := by
    induction hac with
    | single hac => exact hstep hac
    | tail _ hac ih => exact Nat.lt_trans ih (hstep hac)
  exact fun b hb => Nat.lt_irrefl b (hlt hb)

/-! ## where a step leads -/

theorem nextInst_spec (hp : p.WellFormed) {i j : Nat} (h : p.nextInst i = some j) :
    j < p.insts.size ∧ p.blockOf j = p.blockOf i ∧ (p.inst j).pos = (p.inst i).pos + 1 :=
  hp.position_iff.1 h

/-- The first instruction of a block is no phi, and all before it are. -/
theorem firstInst_spec (hp : p.WellFormed) {b j : Nat} (h : p.firstInst b = some j) :
    j < p.insts.size ∧ p.blockOf j = b ∧ (p.op j).isPhi = false ∧
      ∀ i < p.insts.size, p.blockOf i = b → (p.inst i).pos < (p.inst j).pos →
        (p.op i).isPhi = true := by
  obtain ⟨hphi, k, hk, hget, hbefore⟩ := List.find?_eq_some_iff_getElem.1 h
  obtain ⟨hj, hblock, hpos⟩ := hp.position_iff.1 (List.getElem?_eq_some_iff.2 ⟨hk, hget⟩)
  refine ⟨hj, hblock, by simpa using hphi, fun i hi hib hlt => ?_⟩
  have hat := hp.position_iff.2 ⟨hi, hib, rfl⟩
  obtain ⟨hlen, hget⟩ := List.getElem?_eq_some_iff.1 hat
  have hphi := hbefore _ (hpos ▸ hlt)
  rw [hget] at hphi
  simpa using hphi

/-- Control goes from the end of a block to the beginning of a successor, and else to the next place
in the block. -/
theorem follows_cases (hp : p.WellFormed) {i j : Nat} (h : p.Follows i j) :
    ((p.op i).isTerminator = true ∧ p.blockOf j ∈ (p.block (p.blockOf i)).succs ∧
      p.firstInst (p.blockOf j) = some j) ∨
    ((p.op i).isTerminator = false ∧ p.nextInst i = some j) := by
  unfold Follows at h
  split at h
  · next hterm =>
    obtain ⟨b, hb, hfirst⟩ := h
    obtain ⟨-, rfl, -⟩ := firstInst_spec hp hfirst
    exact .inl ⟨hterm, hb, hfirst⟩
  · next hterm => exact .inr ⟨Bool.eq_false_iff.2 hterm, h⟩

theorem lt_of_follows (hp : p.WellFormed) {i j : Nat} (h : p.Follows i j) : j < p.insts.size := by
  obtain ⟨-, -, hfirst⟩ | ⟨-, hnext⟩ := follows_cases hp h
  · exact (firstInst_spec hp hfirst).1
  · exact (nextInst_spec hp hnext).1

/-- A place in a block holds one instruction. -/
theorem WellFormed.eq_of_pos (hp : p.WellFormed) {i j : Nat} (hi : i < p.insts.size)
    (hj : j < p.insts.size) (hblock : p.blockOf i = p.blockOf j)
    (hpos : (p.inst i).pos = (p.inst j).pos) : i = j := by
  have hat := hp.position_iff.2 ⟨hi, hblock, hpos⟩
  have hat' := hp.position_iff.2 ⟨hj, rfl, rfl⟩
  exact Option.some.inj (hat.symm.trans hat')

theorem mem_instsBefore_iff (hp : p.WellFormed) {i j : Nat} : j ∈ p.instsBefore i ↔
    j < p.insts.size ∧ p.blockOf j = p.blockOf i ∧ (p.inst j).pos < (p.inst i).pos := by
  rw [instsBefore, List.mem_take_iff_getElem]
  constructor
  · rintro ⟨k, hk, hget⟩
    rw [Nat.lt_min] at hk
    obtain ⟨hlt, hblock, rfl⟩ := hp.position_iff.1 (List.getElem?_eq_some_iff.2 ⟨hk.2, hget⟩)
    exact ⟨hlt, hblock, hk.1⟩
  · rintro ⟨hlt, hblock, hpos⟩
    obtain ⟨hk, hget⟩ := List.getElem?_eq_some_iff.1 (hp.position_iff.2 ⟨hlt, hblock, rfl⟩)
    exact ⟨_, Nat.lt_min.2 ⟨hpos, hk⟩, hget⟩

theorem mem_instsAfter_iff (hp : p.WellFormed) {i j : Nat} : j ∈ p.instsAfter i ↔
    j < p.insts.size ∧ p.blockOf j = p.blockOf i ∧ (p.inst i).pos < (p.inst j).pos := by
  rw [instsAfter, List.mem_iff_getElem?]
  simp only [List.getElem?_drop]
  constructor
  · rintro ⟨k, hk⟩
    obtain ⟨hlt, hblock, hpos⟩ := hp.position_iff.1 hk
    exact ⟨hlt, hblock, by omega⟩
  · rintro ⟨hlt, hblock, hpos⟩
    refine ⟨(p.inst j).pos - ((p.inst i).pos + 1), hp.position_iff.2 ⟨hlt, hblock, ?_⟩⟩
    omega

/-- An instruction is the next one of a single instruction. -/
theorem eq_of_nextInst_eq (hp : p.WellFormed) {i i' j : Nat} (hi : i < p.insts.size)
    (hi' : i' < p.insts.size) (h : p.nextInst i = some j) (h' : p.nextInst i' = some j) :
    i = i' := by
  obtain ⟨-, hblock, hpos⟩ := nextInst_spec hp h
  obtain ⟨-, hblock', hpos'⟩ := nextInst_spec hp h'
  exact hp.eq_of_pos hi hi' (hblock.symm.trans hblock') (by omega)

/-- The instruction after one that is no phi does not begin its block. -/
theorem firstInst_ne_of_nextInst (hp : p.WellFormed) {i j : Nat} (hi : i < p.insts.size)
    (hphi : (p.op i).isPhi = false) (h : p.nextInst i = some j) (b : BlockId) :
    p.firstInst b ≠ some j := by
  intro hfirst
  obtain ⟨-, hblock, hpos⟩ := nextInst_spec hp h
  obtain ⟨-, hb, -, hbefore⟩ := firstInst_spec hp hfirst
  have := hbefore i hi (hblock.symm.trans hb) (by omega)
  rw [hphi] at this
  cases this

/-- All instructions of a run after its start are in the table. -/
theorem Runs.lt (hp : p.WellFormed) {i : Nat} {is : List Nat} (h : p.Runs (i :: is)) :
    ∀ j ∈ is, j < p.insts.size := by
  induction is generalizing i with
  | nil => simp
  | cons j js ih =>
    obtain ⟨hij, hrest⟩ := List.isChain_cons_cons.1 h
    intro k hk
    rcases List.mem_cons.1 hk with rfl | hk
    · exact lt_of_follows hp hij
    · exact ih hrest k hk

/-! ## both ends of a block -/

/-- A block begins at or before each of its instructions that is no phi. -/
theorem Finished.exists_firstInst (hp : p.Finished) {i : Nat} (hi : i < p.insts.size)
    (hphi : (p.op i).isPhi = false) :
    ∃ k, p.firstInst (p.blockOf i) = some k ∧ k < p.insts.size ∧ p.blockOf k = p.blockOf i ∧
      (p.inst k).pos ≤ (p.inst i).pos := by
  have hmem : i ∈ (p.block (p.blockOf i)).insts :=
    List.mem_of_getElem? (hp.wellFormed.position_iff.2 ⟨hi, rfl, rfl⟩)
  have hsome : (p.firstInst (p.blockOf i)).isSome := by
    rw [firstInst, List.find?_isSome]
    exact ⟨i, hmem, by simp [hphi]⟩
  obtain ⟨k, hk⟩ := Option.isSome_iff_exists.1 hsome
  obtain ⟨hlt, hblock, -, hbefore⟩ := firstInst_spec hp.wellFormed hk
  refine ⟨k, hk, hlt, hblock, Nat.le_of_not_lt fun hpos => ?_⟩
  have := hbefore i hi rfl hpos
  rw [hphi] at this
  cases this

/-- A block ends with a terminator. -/
theorem Finished.exists_last (hp : p.Finished) {b : Nat} (hb : b < p.blocks.size) :
    ∃ t, t < p.insts.size ∧ p.blockOf t = b ∧ (p.op t).isTerminator = true := by
  obtain ⟨t, ht, hterm, -⟩ := hp.exists_terminator hb
  obtain ⟨m, hm⟩ := List.mem_iff_getElem?.1 (List.mem_of_getLast? ht)
  obtain ⟨hlt, hblock, -⟩ := hp.wellFormed.position_iff.1 hm
  exact ⟨t, hlt, hblock, hterm⟩

theorem isPhi_of_isTerminator {i : Nat} (h : (p.op i).isTerminator = true) :
    (p.op i).isPhi = false := by
  cases hop : p.op i <;> simp_all [Operation.isTerminator, Operation.isPhi]

theorem isPhi_of_isInteresting {i : Nat} (h : p.isInteresting i = true) :
    (p.op i).isPhi = false := by
  rw [isInteresting] at h
  cases hop : p.op i <;> simp_all [Operation.isInteresting, Operation.isPhi]

theorem isTerminator_of_isInteresting {i : Nat} (h : p.isInteresting i = true) :
    (p.op i).isTerminator = false := by
  rw [isInteresting] at h
  cases hop : p.op i <;> simp_all [Operation.isInteresting, Operation.isTerminator]

theorem isInteresting_of_isCall {i : Nat} (h : p.isCall i = true) : p.isInteresting i = true := by
  rw [isCall] at h
  rw [isInteresting]
  cases hop : p.op i <;> simp_all [Operation.isCall, Operation.isInteresting]

theorem isPhi_of_isCall {i : Nat} (h : p.isCall i = true) : (p.op i).isPhi = false :=
  isPhi_of_isInteresting (isInteresting_of_isCall h)

end Program

end DataRace
