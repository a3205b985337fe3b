import DataRace.Parallel.Reach
import DataRace.Proofs.Call.Component
import DataRace.Proofs.Flow.Run

/-!
# DataRace.Proofs.Parallel.Reach

Code that runs after a point is found as far as it is open, and no more.

Code is kept at mixed granularity: a block with a join inside is kept as the
loads, stores and calls before the join, any other block as a whole.  So what
is kept is not closed under the steps of control, but it is closed in this
sense: behind a kept block or instruction every block that control enters is
kept as far as it is open (`Cut.Closed`).

* `Cut.Step` is a step of control that does not lead behind a join;
* `Closed.covers_of_path` — closed code holds what open steps lead to;
* `covers_fromBlocks`, `covers_after` — only such code is added.
-/

namespace DataRace

open Std Relation

/-! ## sets of code -/

namespace CodeSet

variable {p : Program} {a b d : CodeSet} {i x : Nat}

theorem covers_iff : a.covers p i = true ↔
    p.funcOf i ∈ a.funcs ∨ p.blockOf i ∈ a.blocks ∨ i ∈ a.insts := by
  simp only [covers, Bool.or_eq_true, TreeSet.contains_iff_mem, or_assoc]

theorem coversBlock_iff : a.coversBlock p x = true ↔ (p.block x).func ∈ a.funcs ∨ x ∈ a.blocks := by
  simp only [coversBlock, Bool.or_eq_true, TreeSet.contains_iff_mem]

theorem covers_empty : (∅ : CodeSet).covers p i = false := by
  rw [← Bool.not_eq_true, covers_iff]
  rintro (h | h | h) <;> exact absurd h TreeSet.not_mem_emptyc

theorem coversBlock_empty : (∅ : CodeSet).coversBlock p x = false := by
  rw [← Bool.not_eq_true, coversBlock_iff]
  rintro (h | h) <;> exact absurd h TreeSet.not_mem_emptyc

/-- The code of one set is in another at the same granularity. -/
structure Within (a b : CodeSet) : Prop where
  funcs : ∀ f ∈ a.funcs, f ∈ b.funcs
  blocks : ∀ x ∈ a.blocks, x ∈ b.blocks
  insts : ∀ i ∈ a.insts, i ∈ b.insts

namespace Within

theorem refl (a : CodeSet) : a.Within a := ⟨fun _ h => h, fun _ h => h, fun _ h => h⟩

theorem trans (hab : a.Within b) (hbd : b.Within d) : a.Within d :=
  ⟨fun f h => hbd.funcs f (hab.funcs f h), fun x h => hbd.blocks x (hab.blocks x h),
    fun i h => hbd.insts i (hab.insts i h)⟩

theorem covers (h : a.Within b) (hi : a.covers p i = true) : b.covers p i = true := by
  rw [covers_iff] at hi ⊢
  exact hi.imp (h.funcs _) (Or.imp (h.blocks _) (h.insts _))

theorem coversBlock (h : a.Within b) (hx : a.coversBlock p x = true) :
    b.coversBlock p x = true := by
  rw [coversBlock_iff] at hx ⊢
  exact hx.imp (h.funcs _) (h.blocks _)

end Within

/-- Code of some functions is added. -/
structure Adds (p : Program) (F : FuncId → Prop) (a b : CodeSet) : Prop extends Within a b where
  func : ∀ f ∈ b.funcs, f ∈ a.funcs ∨ F f
  block : ∀ x ∈ b.blocks, x ∈ a.blocks ∨ F (p.block x).func
  inst : ∀ i ∈ b.insts, i ∈ a.insts ∨ F (p.funcOf i)

namespace Adds

variable {F G : FuncId → Prop}

theorem refl (a : CodeSet) : Adds p F a a :=
  ⟨.refl a, fun _ => .inl, fun _ => .inl, fun _ => .inl⟩

theorem trans (hab : Adds p F a b) (hbd : Adds p F b d) : Adds p F a d where
  toWithin := hab.toWithin.trans hbd.toWithin
  func f hf := (hbd.func f hf).elim (hab.func f) .inr
  block x hx := (hbd.block x hx).elim (hab.block x) .inr
  inst i hi := (hbd.inst i hi).elim (hab.inst i) .inr

theorem mono (h : Adds p F a b) (hFG : ∀ f, F f → G f) : Adds p G a b where
  toWithin := h.toWithin
  func f hf := (h.func f hf).imp_right (hFG f)
  block x hx := (h.block x hx).imp_right (hFG _)
  inst i hi := (h.inst i hi).imp_right (hFG _)

/-- The code of the other functions is as before. -/
theorem covers_of_not (h : Adds p F a b) (hplaced : p.Placed) (hi : i < p.insts.size)
    (hF : ¬F (p.funcOf i)) (hcov : b.covers p i = true) : a.covers p i = true := by
  rw [covers_iff] at hcov ⊢
  rcases hcov with hf | hx | hk
  · exact .inl ((h.func _ hf).resolve_right hF)
  · refine .inr (.inl ((h.block _ hx).resolve_right ?_))
    rwa [hplaced i hi]
  · exact .inr (.inr ((h.inst _ hk).resolve_right hF))

end Adds

theorem adds_addFunc (a : CodeSet) (f : FuncId) : Adds p (· = f) a (a.addFunc f) where
  funcs _ h := IdSet.mem_insert.2 (.inr h)
  blocks _ h := h
  insts _ h := h
  func _ h := (IdSet.mem_insert.1 h).elim (fun h => .inr h.symm) .inl
  block _ := .inl
  inst _ := .inl

/-- Dropping what is inside at a coarser granularity loses no instruction. -/
theorem covers_reduce (hplaced : p.Placed) (hi : i < p.insts.size) :
    (a.reduce p).covers p i = a.covers p i := by
  rw [Bool.eq_iff_iff, covers_iff, covers_iff]
  simp only [reduce, IdSet.mem_filter, hplaced i hi, Bool.not_eq_true', Bool.and_eq_true,
    ← Bool.not_eq_true, TreeSet.contains_iff_mem]
  tauto

end CodeSet

namespace Cut

open CodeSet

variable {p : Program} {c : Cut} {T U : CodeSet} {f : FuncId} {b i j k r : Nat}

/-! ## open instructions -/

theorem mem_takeWhile_of_getElem? {xs : List Nat} {q : Nat → Bool} {m x : Nat}
    (hx : xs[m]? = some x)
    (h : ∀ n ≤ m, ∀ y, xs[n]? = some y → q y = true) : x ∈ xs.takeWhile q := by
  induction xs generalizing m with
  | nil => simp at hx
  | cons y ys ih =>
    rw [List.takeWhile_cons_of_pos (h 0 (Nat.zero_le m) y rfl), List.mem_cons]
    cases m with
    | zero => exact .inl (Option.some.inj hx).symm
    | succ m =>
      exact .inr (ih hx fun n hn z hz => h (n + 1) (Nat.succ_le_succ hn) z hz)

/-- Up to its end a block has no terminator, so no load, store or call is left out. -/
theorem mem_takeWhile_drop (hp : p.Finished) {n : Nat} (hint : p.isInteresting k = true) :
    k ∈ ((p.block b).insts.drop n).takeWhile (fun i => !(p.op i).isTerminator) ↔
      k < p.insts.size ∧ p.blockOf k = b ∧ n ≤ (p.inst k).pos := by
  have hwf := hp.wellFormed
  constructor
  · intro htaken
    obtain ⟨m, hm⟩ := List.mem_iff_getElem?.1 (List.takeWhile_subset _ htaken)
    rw [List.getElem?_drop] at hm
    obtain ⟨hlt, hblock, hpos⟩ := hwf.position_iff.1 hm
    exact ⟨hlt, hblock, by omega⟩
  · rintro ⟨hlt, hblock, hpos⟩
    have hat : ((p.block b).insts.drop n)[(p.inst k).pos - n]? = some k := by
      rw [List.getElem?_drop]
      exact hwf.position_iff.2 ⟨hlt, hblock, by omega⟩
    refine mem_takeWhile_of_getElem? hat fun m hm t ht => ?_
    rw [List.getElem?_drop] at ht
    obtain ⟨htlt, htblock, htpos⟩ := hwf.position_iff.1 ht
    cases hterm : (p.op t).isTerminator with
    | false => rfl
    | true =>
      -- A terminator is last, so it would be the instruction itself.
      have hle := hp.pos_le_of_isTerminator htlt hterm hlt (hblock.trans htblock.symm)
      have hpos' : (p.inst t).pos = (p.inst k).pos := by omega
      have heq : t = k := hwf.eq_of_pos htlt hlt (htblock.trans hblock.symm) hpos'
      rw [heq, Program.isTerminator_of_isInteresting hint] at hterm
      cases hterm

theorem mem_openInsts_drop (hp : p.Finished) {n : Nat} :
    k ∈ c.openInsts p ((p.block b).insts.drop n) ↔ k < p.insts.size ∧ p.blockOf k = b ∧
      n ≤ (p.inst k).pos ∧ p.isInteresting k = true ∧ c.code.covers p k = false := by
  rw [openInsts, List.mem_filter, Bool.and_eq_true, Bool.not_eq_true']
  constructor
  · rintro ⟨htaken, hint, hcut⟩
    obtain ⟨hlt, hblock, hpos⟩ := (mem_takeWhile_drop hp hint).1 htaken
    exact ⟨hlt, hblock, hpos, hint, hcut⟩
  · rintro ⟨hlt, hblock, hpos, hint, hcut⟩
    exact ⟨(mem_takeWhile_drop hp hint).2 ⟨hlt, hblock, hpos⟩, hint, hcut⟩

theorem mem_openInsts_block (hp : p.Finished) :
    k ∈ c.openInsts p (p.block b).insts ↔ k < p.insts.size ∧ p.blockOf k = b ∧
      p.isInteresting k = true ∧ c.code.covers p k = false := by
  simpa using mem_openInsts_drop (c := c) (k := k) (b := b) hp (n := 0)

theorem mem_openInsts_after (hp : p.Finished) :
    k ∈ c.openInsts p (p.instsAfter r) ↔ k < p.insts.size ∧ p.blockOf k = p.blockOf r ∧
      (p.inst r).pos < (p.inst k).pos ∧ p.isInteresting k = true ∧ c.code.covers p k = false :=
  mem_openInsts_drop hp

/-! ## adding instructions and blocks -/

theorem addInsts_eq (is : List InstId) (T : CodeSet) : c.addInsts p is T =
    { T with insts := (c.openInsts p is).foldl (·.insert ·) T.insts } := by
  unfold addInsts
  induction c.openInsts p is generalizing T with
  | nil => rfl
  | cons x xs ih => exact ih (T.addInst x)

theorem funcs_addInsts {is : List InstId} : (c.addInsts p is T).funcs = T.funcs := by
  rw [addInsts_eq]

theorem blocks_addInsts {is : List InstId} : (c.addInsts p is T).blocks = T.blocks := by
  rw [addInsts_eq]

theorem mem_addInsts {is : List InstId} :
    k ∈ (c.addInsts p is T).insts ↔ k ∈ T.insts ∨ k ∈ c.openInsts p is := by
  rw [addInsts_eq]
  exact IdSet.mem_foldl_insert

/-- A block that control may still get into. -/
def IsOpen (c : Cut) (p : Program) (T : CodeSet) (b : BlockId) : Prop :=
  b ∉ T.blocks ∧ c.code.coversBlock p b = false

/-- The blocks that control gets into from some blocks on. -/
def entered (c : Cut) (p : Program) (start : List BlockId) (T : CodeSet) : IdSet :=
  let isOpen (b : BlockId) := !T.blocks.contains b && !c.code.coversBlock p b
  reachable p.blocks.size
    (fun b => if c.joinBlocks.contains b then [] else (p.block b).succs.filter isOpen)
    (start.filter isOpen)

theorem isOpen_iff : (!T.blocks.contains b && !c.code.coversBlock p b) = true ↔ c.IsOpen p T b := by
  rw [IsOpen, Bool.and_eq_true, Bool.not_eq_true', Bool.not_eq_true', ← Bool.not_eq_true,
    TreeSet.contains_iff_mem]

variable {start : List BlockId}

theorem mem_entered_of_start (hb : b ∈ start) (hopen : c.IsOpen p T b) (hlt : b < p.blocks.size) :
    b ∈ c.entered p start T :=
  mem_reachable_iff.2 ⟨b, List.mem_filter.2 ⟨hb, isOpen_iff.2 hopen⟩, hlt, .refl⟩

theorem edge_entered_iff {a b : Nat} : Search.Edge p.blocks.size (fun b =>
    if c.joinBlocks.contains b then [] else (p.block b).succs.filter
      fun b => !T.blocks.contains b && !c.code.coversBlock p b) a b ↔
    a ∉ c.joinBlocks ∧ b ∈ (p.block a).succs ∧ c.IsOpen p T b ∧ b < p.blocks.size := by
  simp only [Search.Edge]
  split
  · next h => simp [TreeSet.contains_iff_mem.1 h]
  · next h => simp [TreeSet.contains_iff_mem.not.1 h, List.mem_filter, ← isOpen_iff, and_assoc]

theorem mem_entered_of_succ {a : Nat} (ha : a ∈ c.entered p start T) (hjoin : a ∉ c.joinBlocks)
    (hb : b ∈ (p.block a).succs) (hopen : c.IsOpen p T b) (hlt : b < p.blocks.size) :
    b ∈ c.entered p start T := by
  obtain ⟨r, hr, hr_lt, hpath⟩ := mem_reachable_iff.1 ha
  exact mem_reachable_iff.2 ⟨r, hr, hr_lt, hpath.tail (edge_entered_iff.2 ⟨hjoin, hb, hopen, hlt⟩)⟩

theorem entered_induction {P : Nat → Prop} (hstart : ∀ b ∈ start, c.IsOpen p T b → P b)
    (hstep : ∀ a ∈ c.entered p start T, P a → a ∉ c.joinBlocks → ∀ b ∈ (p.block a).succs,
      c.IsOpen p T b → P b) : ∀ b ∈ c.entered p start T, P b := by
  intro b hb
  obtain ⟨r, hr, hlt, hpath⟩ := mem_reachable_iff.1 hb
  induction hpath with
  | refl =>
    have hr := List.mem_filter.1 hr
    exact hstart r hr.1 (isOpen_iff.1 hr.2)
  | tail hinit hedge ih =>
    have ha := mem_reachable_iff.2 ⟨r, hr, hlt, hinit⟩
    obtain ⟨hjoin, hsucc, hopen, -⟩ := edge_entered_iff.1 hedge
    exact hstep _ ha (ih ha) hjoin _ hsucc hopen

theorem isOpen_of_mem_entered : ∀ b ∈ c.entered p start T, c.IsOpen p T b :=
  entered_induction (fun _ _ h => h) (fun _ _ _ _ _ _ h => h)

/-- What adding blocks adds: blocks without a join as a whole, else the open instructions. -/
theorem foldl_addBlock (bs : List BlockId) (T : CodeSet) :
    (bs.foldl (c.addBlock p) T).funcs = T.funcs ∧
    (∀ b : Nat, b ∈ (bs.foldl (c.addBlock p) T).blocks ↔
      b ∈ T.blocks ∨ b ∈ bs ∧ b ∉ c.joinBlocks) ∧
    ∀ k : Nat, k ∈ (bs.foldl (c.addBlock p) T).insts ↔
      k ∈ T.insts ∨ ∃ b ∈ bs, b ∈ c.joinBlocks ∧ k ∈ c.openInsts p (p.block b).insts := by
  induction bs generalizing T with
  | nil => simp
  | cons x xs ih =>
    obtain ⟨hfuncs, hblocks, hinsts⟩ := ih (c.addBlock p T x)
    rw [List.foldl_cons]
    by_cases hx : x ∈ c.joinBlocks
    · have hadd : c.addBlock p T x = c.addInsts p (p.block x).insts T := by
        rw [addBlock, if_pos (TreeSet.contains_iff_mem.2 hx)]
      refine ⟨hfuncs.trans (by rw [hadd, funcs_addInsts]), fun b => ?_, fun k => ?_⟩
      · rw [hblocks, hadd, blocks_addInsts]
        grind
      · rw [hinsts, hadd, mem_addInsts]
        grind
    · have hadd : c.addBlock p T x = T.addBlock x := by
        rw [addBlock, if_neg (TreeSet.contains_iff_mem.not.2 hx)]
      refine ⟨hfuncs.trans (by rw [hadd]; rfl), fun b => ?_, fun k => ?_⟩
      · rw [hblocks, hadd, CodeSet.addBlock, IdSet.mem_insert]
        grind
      · rw [hinsts, hadd, CodeSet.addBlock]
        grind

theorem fromBlocks_eq :
    c.fromBlocks p start T = (c.entered p start T).toList.foldl (c.addBlock p) T :=
  TreeSet.foldl_eq_foldl_toList

theorem funcs_fromBlocks : (c.fromBlocks p start T).funcs = T.funcs := by
  rw [fromBlocks_eq]
  exact (foldl_addBlock _ T).1

theorem mem_blocks_fromBlocks : b ∈ (c.fromBlocks p start T).blocks ↔
    b ∈ T.blocks ∨ b ∈ c.entered p start T ∧ b ∉ c.joinBlocks := by
  rw [fromBlocks_eq, (foldl_addBlock _ T).2.1, TreeSet.mem_toList]

theorem mem_insts_fromBlocks : k ∈ (c.fromBlocks p start T).insts ↔ k ∈ T.insts ∨
    ∃ b ∈ c.entered p start T, b ∈ c.joinBlocks ∧ k ∈ c.openInsts p (p.block b).insts := by
  rw [fromBlocks_eq, (foldl_addBlock _ T).2.2]
  simp only [TreeSet.mem_toList]

/-! ## closed code -/

/-- Control passes on, neither from the end of a block with a join nor into a block that is cut
off. -/
structure Step (c : Cut) (p : Program) (i j : InstId) : Prop where
  follows : p.Follows i j
  leaves : (p.op i).isTerminator = true → p.blockOf i ∉ c.joinBlocks
  enters : (p.op i).isTerminator = true → c.code.coversBlock p (p.blockOf j) = false

/-- A block is inside as far as it is open. -/
def HasBlock (c : Cut) (p : Program) (T : CodeSet) (b : BlockId) : Prop :=
  c.code.coversBlock p b = true ∨ T.coversBlock p b = true ∨
    b ∈ c.joinBlocks ∧ ∀ k ∈ c.openInsts p (p.block b).insts, T.covers p k = true

/-- What follows an instruction is inside: the rest of its block, and the blocks after it. -/
structure Passes (c : Cut) (p : Program) (T : CodeSet) (i : InstId) : Prop where
  rest : ∀ k ∈ c.openInsts p (p.instsAfter i), T.covers p k = true
  succs : p.blockOf i ∉ c.joinBlocks → ∀ b ∈ (p.block (p.blockOf i)).succs, c.HasBlock p T b

/-- With the code of a function all that follows it is inside. -/
structure Closed (c : Cut) (p : Program) (f : FuncId) (T : CodeSet) : Prop where
  not_join : ∀ b ∈ T.blocks, (p.block b).func = f → b ∉ c.joinBlocks
  block : ∀ b ∈ T.blocks, (p.block b).func = f → ∀ d ∈ (p.block b).succs, c.HasBlock p T d
  inst : ∀ i ∈ T.insts, p.funcOf i = f → c.Passes p T i

theorem HasBlock.mono (h : c.HasBlock p T b) (hTU : T.Within U) : c.HasBlock p U b :=
  h.imp_right (Or.imp hTU.coversBlock fun ⟨hj, hk⟩ => ⟨hj, fun k hmem => hTU.covers (hk k hmem)⟩)

theorem Passes.mono (h : c.Passes p T i) (hTU : T.Within U) : c.Passes p U i :=
  ⟨fun k hk => hTU.covers (h.rest k hk), fun hj b hb => (h.succs hj b hb).mono hTU⟩

theorem closed_empty : c.Closed p f ∅ where
  not_join _ hb := absurd hb TreeSet.not_mem_emptyc
  block _ hb := absurd hb TreeSet.not_mem_emptyc
  inst _ hi := absurd hi TreeSet.not_mem_emptyc

/-- Code of other functions does not matter. -/
theorem Closed.of_adds (h : c.Closed p f T) {F : FuncId → Prop} (hadds : Adds p F T U) (hF : ¬F f) :
    c.Closed p f U := by
  have hblock (b : Nat) (hb : b ∈ U.blocks) (hf : (p.block b).func = f) : b ∈ T.blocks :=
    (hadds.block b hb).resolve_right (hf ▸ hF)
  have hinst (i : Nat) (hi : i ∈ U.insts) (hf : p.funcOf i = f) : i ∈ T.insts :=
    (hadds.inst i hi).resolve_right (hf ▸ hF)
  exact {
    not_join b hb hf := h.not_join b (hblock b hb hf) hf
    block b hb hf d hd := (h.block b (hblock b hb hf) hf d hd).mono hadds.toWithin
    inst i hi hf := (h.inst i (hinst i hi hf) hf).mono hadds.toWithin }

theorem Closed.addFunc (h : c.Closed p f T) (g : FuncId) : c.Closed p f (T.addFunc g) where
  not_join := h.not_join
  block b hb hf d hd := (h.block b hb hf d hd).mono (adds_addFunc (p := p) T g).toWithin
  inst i hi hf := (h.inst i hi hf).mono (adds_addFunc (p := p) T g).toWithin

/-! ## blocks that control gets into -/

theorem within_fromBlocks : T.Within (c.fromBlocks p start T) where
  funcs _ h := by rwa [funcs_fromBlocks]
  blocks _ h := mem_blocks_fromBlocks.2 (.inl h)
  insts _ h := mem_insts_fromBlocks.2 (.inl h)

theorem adds_fromBlocks (hp : p.Finished) (hplaced : p.Placed)
    (hstart : ∀ b ∈ start, (p.block b).func = f) : Adds p (· = f) T (c.fromBlocks p start T) := by
  have hfunc : ∀ b ∈ c.entered p start T, (p.block b).func = f :=
    entered_induction (fun b hb _ => hstart b hb)
      (fun a _ ha _ b hb _ => (hp.succ_spec hb).2.2.trans ha)
  refine ⟨within_fromBlocks, fun g hg => ?_, fun b hb => ?_, fun k hk => ?_⟩
  · rw [funcs_fromBlocks] at hg
    exact .inl hg
  · exact (mem_blocks_fromBlocks.1 hb).imp_right fun h => hfunc b h.1
  · refine (mem_insts_fromBlocks.1 hk).imp_right fun ⟨b, hb, _, hopen⟩ => ?_
    obtain ⟨hlt, rfl, -⟩ := (mem_openInsts_block hp).1 hopen
    exact (hplaced k hlt).symm.trans (hfunc _ hb)

/-- The blocks to start with and those after a block that is added are inside. -/
theorem hasBlock_fromBlocks (hlt : b < p.blocks.size) (h : b ∈ start ∨
    ∃ a ∈ c.entered p start T, a ∉ c.joinBlocks ∧ b ∈ (p.block a).succs) :
    c.HasBlock p (c.fromBlocks p start T) b := by
  by_cases hopen : c.IsOpen p T b
  · have hin : b ∈ c.entered p start T := by
      rcases h with hb | ⟨a, ha, hjoin, hb⟩
      · exact mem_entered_of_start hb hopen hlt
      · exact mem_entered_of_succ ha hjoin hb hopen hlt
    by_cases hjoin : b ∈ c.joinBlocks
    · refine .inr (.inr ⟨hjoin, fun k hk => covers_iff.2 (.inr (.inr ?_))⟩)
      exact mem_insts_fromBlocks.2 (.inr ⟨b, hin, hjoin, hk⟩)
    · exact .inr (.inl (coversBlock_iff.2 (.inr (mem_blocks_fromBlocks.2 (.inr ⟨hin, hjoin⟩)))))
  · rw [IsOpen, not_and_or, not_not, Bool.not_eq_false] at hopen
    rcases hopen with hin | hcut
    · exact .inr (.inl (coversBlock_iff.2 (.inr (mem_blocks_fromBlocks.2 (.inl hin)))))
    · exact .inl hcut

/-- Adding blocks closes what is added, so only what was inside before has to be looked at. -/
theorem closed_fromBlocks (hp : p.Finished)
    (hjoin : ∀ b ∈ T.blocks, (p.block b).func = f → b ∉ c.joinBlocks)
    (hblock : ∀ b ∈ T.blocks, (p.block b).func = f →
      ∀ d ∈ (p.block b).succs, c.HasBlock p (c.fromBlocks p start T) d)
    (hinst : ∀ i ∈ T.insts, p.funcOf i = f → c.Passes p (c.fromBlocks p start T) i) :
    c.Closed p f (c.fromBlocks p start T) where
  not_join b hb hf := (mem_blocks_fromBlocks.1 hb).elim (hjoin b · hf) And.right
  block b hb hf d hd := by
    rcases mem_blocks_fromBlocks.1 hb with hb | ⟨hin, hnot⟩
    · exact hblock b hb hf d hd
    · exact hasBlock_fromBlocks (hp.succ_spec hd).2.1 (.inr ⟨b, hin, hnot, hd⟩)
  inst i hi hf := by
    rcases mem_insts_fromBlocks.1 hi with hi | ⟨b, hin, hj, hopen⟩
    · exact hinst i hi hf
    · obtain ⟨hlt, rfl, -⟩ := (mem_openInsts_block hp).1 hopen
      refine ⟨fun k hk => covers_iff.2 (.inr (.inr ?_)), fun hnot => absurd hj hnot⟩
      obtain ⟨hk_lt, hk_block, -, hk_open⟩ := (mem_openInsts_after hp).1 hk
      refine mem_insts_fromBlocks.2 (.inr ⟨_, hin, hj, ?_⟩)
      exact (mem_openInsts_block hp).2 ⟨hk_lt, hk_block, hk_open⟩

/-! ## from the entry, and after an instruction -/

theorem entry_spec (hp : p.Finished) (hb : (p.func f).entry = some b) :
    b < p.blocks.size ∧ (p.block b).func = f :=
  hp.wellFormed.mem_blocks_iff.1 (List.mem_of_mem_head? hb)

theorem adds_fromEntry (hp : p.Finished) (hplaced : p.Placed) :
    Adds p (· = f) T (c.fromEntry p f T) :=
  adds_fromBlocks hp hplaced fun _ hb => (entry_spec hp (Option.mem_toList.1 hb)).2

theorem hasBlock_fromEntry (hp : p.Finished) (hb : (p.func f).entry = some b) :
    c.HasBlock p (c.fromEntry p f T) b :=
  hasBlock_fromBlocks (entry_spec hp hb).1 (.inl (Option.mem_toList.2 hb))

theorem Closed.fromEntry (h : c.Closed p f T) (hp : p.Finished) :
    c.Closed p f (c.fromEntry p f T) :=
  closed_fromBlocks hp h.not_join
    (fun b hb hf d hd => (h.block b hb hf d hd).mono within_fromBlocks)
    (fun i hi hf => (h.inst i hi hf).mono within_fromBlocks)

theorem within_addInsts {is : List InstId} : T.Within (c.addInsts p is T) where
  funcs _ h := by rwa [funcs_addInsts]
  blocks _ h := by rwa [blocks_addInsts]
  insts _ h := mem_addInsts.2 (.inl h)

theorem funcs_after : (c.after p T r).funcs = T.funcs := by
  simp only [after]
  split
  · rfl
  · split
    · rw [funcs_addInsts]
    · rw [funcs_fromBlocks, funcs_addInsts]

theorem adds_after (hp : p.Finished) (hplaced : p.Placed) (hr : r < p.insts.size) :
    Adds p (· = p.funcOf r) T (c.after p T r) := by
  have hinsts : Adds p (· = p.funcOf r) T (c.addInsts p (p.instsAfter r) T) := by
    refine ⟨within_addInsts, fun g hg => ?_, fun b hb => ?_, fun k hk => ?_⟩
    · rw [funcs_addInsts] at hg
      exact .inl hg
    · rw [blocks_addInsts] at hb
      exact .inl hb
    · refine (mem_addInsts.1 hk).imp_right fun hopen => ?_
      obtain ⟨hlt, hblock, -⟩ := (mem_openInsts_after hp).1 hopen
      rw [← hplaced k hlt, ← hplaced r hr, hblock]
  simp only [after]
  split
  · exact .refl T
  · split
    · exact hinsts
    · refine hinsts.trans (adds_fromBlocks hp hplaced fun b hb => ?_)
      exact (hp.succ_spec hb).2.2.trans (hplaced r hr)

/-- In closed code an instruction stands together with what follows it. -/
theorem Closed.passes (h : c.Closed p f T) (hp : p.Finished) (hplaced : p.Placed)
    (hr : r < p.insts.size) (hf : p.funcOf r = f) (hcov : T.covers p r = true) :
    c.Passes p T r := by
  have hfunc (k : Nat) (hk : k < p.insts.size) (hblock : p.blockOf k = p.blockOf r) :
      p.funcOf k = p.funcOf r := by
    rw [← hplaced k hk, ← hplaced r hr, hblock]
  rcases covers_iff.1 hcov with hin | hin | hin
  · refine ⟨fun k hk => covers_iff.2 (.inl ?_),
      fun _ b hb => .inr (.inl (coversBlock_iff.2 (.inl ?_)))⟩
    · obtain ⟨hlt, hblock, -⟩ := (mem_openInsts_after hp).1 hk
      rwa [hfunc k hlt hblock]
    · rwa [(hp.succ_spec hb).2.2, hplaced r hr]
  · refine ⟨fun k hk => covers_iff.2 (.inr (.inl ?_)), fun _ b hb => ?_⟩
    · rwa [((mem_openInsts_after hp).1 hk).2.1]
    · exact h.block _ hin ((hplaced r hr).trans hf) b hb
  · exact h.inst r hin hf

/-- Adding what runs after an instruction keeps the code closed. -/
theorem Closed.after (h : c.Closed p f T) (hp : p.Finished) (hplaced : p.Placed)
    (hr : r < p.insts.size) (hf : p.funcOf r = f) :
    c.Closed p f (c.after p T r) ∧ c.Passes p (c.after p T r) r := by
  -- Behind `r` stand instructions of its block, so they share the blocks after it.
  have hpasses {U : CodeSet} (hU : (c.addInsts p (p.instsAfter r) T).Within U)
      (hsuccs : p.blockOf r ∉ c.joinBlocks → ∀ b ∈ (p.block (p.blockOf r)).succs,
        c.HasBlock p U b) :
      c.Passes p U r ∧ ∀ i ∈ (c.addInsts p (p.instsAfter r) T).insts, p.funcOf i = f →
        c.Passes p U i := by
    have hrest : ∀ k ∈ c.openInsts p (p.instsAfter r), U.covers p k = true := fun k hk =>
      hU.covers (covers_iff.2 (.inr (.inr (mem_addInsts.2 (.inr hk)))))
    refine ⟨⟨hrest, hsuccs⟩, fun i hi hif => ?_⟩
    rcases mem_addInsts.1 hi with hi | hi
    · exact (h.inst i hi hif).mono (within_addInsts.trans hU)
    · obtain ⟨-, hblock, hpos, -⟩ := (mem_openInsts_after hp).1 hi
      refine ⟨fun k hk => hrest k ?_, fun hj b hb => hsuccs (hblock ▸ hj) b (hblock ▸ hb)⟩
      obtain ⟨hk_lt, hk_block, hk_pos, hk_open⟩ := (mem_openInsts_after hp).1 hk
      exact (mem_openInsts_after hp).2 ⟨hk_lt, hk_block.trans hblock, by omega, hk_open⟩
  simp only [Cut.after]
  split
  · next hcov => exact ⟨h, h.passes hp hplaced hr hf hcov⟩
  · split
    · next hj =>
      obtain ⟨hself, hinst⟩ :=
        hpasses (.refl _) fun hnot => absurd (TreeSet.contains_iff_mem.1 hj) hnot
      refine ⟨⟨?_, ?_, hinst⟩, hself⟩
      · rw [blocks_addInsts]
        exact h.not_join
      · rw [blocks_addInsts]
        exact fun b hb hbf d hd => (h.block b hb hbf d hd).mono within_addInsts
    · obtain ⟨hself, hinst⟩ := hpasses within_fromBlocks fun _ b hb =>
        hasBlock_fromBlocks (hp.succ_spec hb).2.1 (.inl hb)
      refine ⟨closed_fromBlocks hp ?_ ?_ hinst, hself⟩
      · rw [blocks_addInsts]
        exact h.not_join
      · rw [blocks_addInsts]
        exact fun b hb hbf d hd =>
          (h.block b hb hbf d hd).mono (within_addInsts.trans within_fromBlocks)

/-! ## closed code holds what open steps lead to -/

/-- From an instruction on its block and the blocks after it are inside. -/
structure Ahead (c : Cut) (p : Program) (T : CodeSet) (i : InstId) : Prop where
  rest : ∀ k < p.insts.size, p.blockOf k = p.blockOf i → (p.inst i).pos ≤ (p.inst k).pos →
    p.isInteresting k = true → c.code.covers p k = false → T.covers p k = true
  succs : p.blockOf i ∉ c.joinBlocks → ∀ b ∈ (p.block (p.blockOf i)).succs, c.HasBlock p T b

theorem Passes.ahead (h : c.Passes p T i) (hp : p.Finished) (hnext : p.nextInst i = some j) :
    c.Ahead p T j := by
  obtain ⟨-, hblock, hpos⟩ := Program.nextInst_spec hp.wellFormed hnext
  refine ⟨fun k hk hkb hkp hint hcut => h.rest k ?_,
    fun hj b hb => h.succs (hblock ▸ hj) b (hblock ▸ hb)⟩
  exact (mem_openInsts_after hp).2 ⟨hk, hkb.trans hblock, by omega, hint, hcut⟩

theorem Closed.ahead_of_hasBlock (h : c.Closed p f T) (hp : p.Finished) (hplaced : p.Placed)
    (hf : (p.block b).func = f) (hb : c.HasBlock p T b) (hcut : c.code.coversBlock p b = false)
    (hfirst : p.firstInst b = some i) : c.Ahead p T i := by
  obtain ⟨-, rfl, -⟩ := Program.firstInst_spec hp.wellFormed hfirst
  rcases hb with hb | hb | ⟨hjoin, hopen⟩
  · rw [hcut] at hb
    cases hb
  · rcases coversBlock_iff.1 hb with hin | hin
    · refine ⟨fun k hk hkb _ _ _ => covers_iff.2 (.inl ?_), fun _ d hd => .inr (.inl ?_)⟩
      · rwa [← hplaced k hk, hkb]
      · rw [coversBlock_iff, (hp.succ_spec hd).2.2]
        exact .inl hin
    · refine ⟨fun k _ hkb _ _ _ => covers_iff.2 (.inr (.inl ?_)), fun _ => h.block _ hin hf⟩
      rwa [hkb]
  · refine ⟨fun k hk hkb _ hint hcut => hopen k ?_, fun hnot => absurd hjoin hnot⟩
    exact (mem_openInsts_block hp).2 ⟨hk, hkb, hint, hcut⟩

/-- One open step stays ahead. -/
theorem Closed.ahead_step (h : c.Closed p f T) (hp : p.Finished) (hplaced : p.Placed)
    (hf : (p.block (p.blockOf i)).func = f) (hi : c.Ahead p T i) (hstep : c.Step p i j) :
    c.Ahead p T j ∧ (p.block (p.blockOf j)).func = f := by
  obtain ⟨hterm, hb, hfirst⟩ | ⟨-, hnext⟩ := Program.follows_cases hp.wellFormed hstep.follows
  · have hbf := (hp.succ_spec hb).2.2.trans hf
    have hhas := hi.succs (hstep.leaves hterm) _ hb
    exact ⟨h.ahead_of_hasBlock hp hplaced hbf hhas (hstep.enters hterm) hfirst, hbf⟩
  · obtain ⟨-, hblock, hpos⟩ := Program.nextInst_spec hp.wellFormed hnext
    refine ⟨⟨fun k hk hkb hkp => hi.rest k hk (hkb.trans hblock) (by omega), ?_⟩, by rwa [hblock]⟩
    rw [hblock]
    exact hi.succs

/-- What open steps lead to is inside. -/
theorem Closed.covers_of_path (h : c.Closed p f T) (hp : p.Finished) (hplaced : p.Placed)
    (hf : (p.block (p.blockOf j)).func = f) (hj : c.Ahead p T j)
    (hpath : ReflTransGen (c.Step p) j i) (hi : i < p.insts.size) (hint : p.isInteresting i = true)
    (hcut : c.code.covers p i = false) : T.covers p i = true := by
  have hahead : c.Ahead p T i ∧ (p.block (p.blockOf i)).func = f := by
    clear hi hint hcut
    induction hpath with
    | refl => exact ⟨hj, hf⟩
    | tail _ hstep ih => exact h.ahead_step hp hplaced ih.2 ih.1 hstep
  exact hahead.1.rest i hi rfl (Nat.le_refl _) hint hcut

/-- What open steps lead to from an instruction is inside, if what follows the instruction is. -/
theorem Closed.covers_of_transGen (h : c.Closed p f T) (hp : p.Finished) (hplaced : p.Placed)
    (hr : r < p.insts.size) (hterm : (p.op r).isTerminator = false) (hf : p.funcOf r = f)
    (hpass : c.Passes p T r) (hpath : TransGen (c.Step p) r i) (hi : i < p.insts.size)
    (hint : p.isInteresting i = true) (hcut : c.code.covers p i = false) : T.covers p i = true := by
  obtain ⟨k, hstep, hpath⟩ := TransGen.head'_iff.1 hpath
  have hnext := hstep.follows
  rw [Program.Follows, hterm] at hnext
  have hkf : (p.block (p.blockOf k)).func = f := by
    rw [(Program.nextInst_spec hp.wellFormed hnext).2.1, hplaced r hr, hf]
  exact h.covers_of_path hp hplaced hkf (hpass.ahead hp hnext) hpath hi hint hcut

/-! ## only what open steps lead to is added -/

/-- Along a block control needs no open end. -/
theorem step_of_nextInst (hterm : (p.op i).isTerminator = false) (h : p.nextInst i = some j) :
    c.Step p i j := by
  refine ⟨?_, fun ht => ?_, fun ht => ?_⟩
  · rw [Program.Follows, hterm]
    exact h
  · simp [hterm] at ht
  · simp [hterm] at ht

/-- Control gets from an instruction to the later ones of its block. -/
theorem path_in_block (hp : p.Finished) (hi : i < p.insts.size) (hk : k < p.insts.size)
    (hblock : p.blockOf k = p.blockOf i) (hpos : (p.inst i).pos ≤ (p.inst k).pos) :
    ReflTransGen (c.Step p) i k := by
  induction hn : (p.inst k).pos - (p.inst i).pos generalizing k with
  | zero =>
    obtain rfl := hp.wellFormed.eq_of_pos hk hi hblock (by omega)
    exact .refl
  | succ n ih =>
    -- The instruction before `k` is no terminator, because `k` stands behind it.
    have hat := hp.wellFormed.position_iff.2 ⟨hk, hblock, rfl⟩
    have hlen := (List.getElem?_eq_some_iff.1 hat).1
    obtain ⟨d, hd⟩ : ∃ d, (p.block (p.blockOf i)).insts[(p.inst k).pos - 1]? = some d :=
      ⟨_, List.getElem?_eq_getElem (by omega)⟩
    obtain ⟨hd_lt, hd_block, hd_pos⟩ := hp.wellFormed.position_iff.1 hd
    have hterm : (p.op d).isTerminator = false := by
      by_contra hne
      have := hp.pos_le_of_isTerminator hd_lt (by simpa using hne) hk (hblock.trans hd_block.symm)
      omega
    have hnext : p.nextInst d = some k := by
      rw [Program.nextInst, hd_block, hd_pos]
      have heq : (p.inst k).pos - 1 + 1 = (p.inst k).pos := by omega
      rw [heq]
      exact hat
    exact (ih hd_lt hd_block (by omega) (by omega)).tail (step_of_nextInst hterm hnext)

/-- What open steps keep holds along a path. -/
theorem of_path {P : Nat → Prop} (hP : ∀ i j, P i → c.Step p i j → P j)
    (hpath : ReflTransGen (c.Step p) k i) (hk : P k) : P i := by
  induction hpath with
  | refl => exact hk
  | tail _ hstep ih => exact hP _ _ ih hstep

/-- What open steps keep holds of a block as soon as it holds where the block begins. -/
theorem of_firstInst (hp : p.Finished) {P : Nat → Prop} (hP : ∀ i j, P i → c.Step p i j → P j)
    (hfirst : ∀ k, p.firstInst (p.blockOf i) = some k → P k) (hi : i < p.insts.size)
    (hphi : (p.op i).isPhi = false) : P i := by
  obtain ⟨k, hk, hk_lt, hk_block, hk_pos⟩ := hp.exists_firstInst hi hphi
  exact of_path hP (path_in_block hp hk_lt hi hk_block.symm hk_pos) (hfirst k hk)

/-- The single instructions that are cut off stand in blocks with a join. -/
def Framed (c : Cut) (p : Program) : Prop := ∀ k ∈ c.code.insts, p.blockOf k ∈ c.joinBlocks

/-- Added blocks hold open code that control gets to. -/
theorem covers_fromBlocks (hp : p.Finished) (hplaced : p.Placed) (hc : c.Framed p)
    {P : Nat → Prop} (hP : ∀ i j, P i → c.Step p i j → P j)
    (hstart : ∀ b ∈ start, c.code.coversBlock p b = false → ∀ k, p.firstInst b = some k → P k)
    (hi : i < p.insts.size) (hint : p.isInteresting i = true)
    (hcov : (c.fromBlocks p start T).covers p i = true) :
    T.covers p i = true ∨ P i ∧ c.code.covers p i = false := by
  have hfirst : ∀ b ∈ c.entered p start T, ∀ k, p.firstInst b = some k → P k := by
    refine entered_induction (fun b hb hopen => hstart b hb hopen.2) ?_
    intro a _ ha hjoin b hb hopen k hk
    obtain ⟨t, ht, rfl, hterm⟩ := hp.exists_last (hp.succ_spec hb).1
    have hPt := of_firstInst hp hP ha ht (Program.isPhi_of_isTerminator hterm)
    refine hP t k hPt ⟨?_, fun _ => hjoin, fun _ => ?_⟩
    · rw [Program.Follows, if_pos hterm]
      exact ⟨b, hb, hk⟩
    · rw [(Program.firstInst_spec hp.wellFormed hk).2.1]
      exact hopen.2
  have hphi := Program.isPhi_of_isInteresting hint
  rcases covers_iff.1 hcov with hin | hin | hin
  · rw [funcs_fromBlocks] at hin
    exact .inl (covers_iff.2 (.inl hin))
  · rcases mem_blocks_fromBlocks.1 hin with hin | ⟨hin, hjoin⟩
    · exact .inl (covers_iff.2 (.inr (.inl hin)))
    · refine .inr ⟨of_firstInst hp hP (hfirst _ hin) hi hphi, ?_⟩
      have hopen := (isOpen_of_mem_entered _ hin).2
      rw [← Bool.not_eq_true, coversBlock_iff, hplaced i hi] at hopen
      rw [← Bool.not_eq_true, covers_iff]
      exact fun h => hopen (h.imp_right fun h => h.resolve_right fun hk => hjoin (hc i hk))
  · rcases mem_insts_fromBlocks.1 hin with hin | ⟨b, hin, -, hmem⟩
    · exact .inl (covers_iff.2 (.inr (.inr hin)))
    · obtain ⟨-, rfl, -, hcut⟩ := (mem_openInsts_block hp).1 hmem
      exact .inr ⟨of_firstInst hp hP (hfirst _ hin) hi hphi, hcut⟩

theorem covers_after (hp : p.Finished) (hplaced : p.Placed) (hc : c.Framed p)
    (hr : r < p.insts.size) (hterm : (p.op r).isTerminator = false) (hi : i < p.insts.size)
    (hint : p.isInteresting i = true) (hcov : (c.after p T r).covers p i = true) :
    T.covers p i = true ∨ TransGen (c.Step p) r i ∧ c.code.covers p i = false := by
  -- Every later instruction of the block is at the end of a path with a step in it.
  have hrest (k : Nat) (hk : k < p.insts.size) (hblock : p.blockOf k = p.blockOf r)
      (hpos : (p.inst r).pos < (p.inst k).pos) : TransGen (c.Step p) r k := by
    rcases (path_in_block (c := c) hp hr hk hblock (by omega)).cases_head with rfl | ⟨d, hd, hpath⟩
    · omega
    · exact .head' hd hpath
  have hadded (hcov : (c.addInsts p (p.instsAfter r) T).covers p i = true) :
      T.covers p i = true ∨ TransGen (c.Step p) r i ∧ c.code.covers p i = false := by
    rw [covers_iff, funcs_addInsts, blocks_addInsts, mem_addInsts] at hcov
    rw [covers_iff]
    rcases hcov with h | h | h | h
    · exact .inl (.inl h)
    · exact .inl (.inr (.inl h))
    · exact .inl (.inr (.inr h))
    · obtain ⟨-, hblock, hpos, -, hcut⟩ := (mem_openInsts_after hp).1 h
      exact .inr ⟨hrest i hi hblock hpos, hcut⟩
  simp only [Cut.after] at hcov
  split at hcov
  · exact .inl hcov
  · split at hcov
    · exact hadded hcov
    · next hjoin =>
      rw [TreeSet.contains_iff_mem] at hjoin
      have hstart : ∀ b ∈ (p.block (p.blockOf r)).succs, c.code.coversBlock p b = false →
          ∀ k, p.firstInst b = some k → TransGen (c.Step p) r k := by
        intro b hb hopen k hk
        obtain ⟨t, ht, htb, hterm'⟩ := hp.exists_last (hp.wellFormed.blockOf_lt hr)
        have hpos : (p.inst r).pos < (p.inst t).pos := by
          have hle := hp.pos_le_of_isTerminator ht hterm' hr htb.symm
          refine Nat.lt_of_le_of_ne hle fun heq => ?_
          rw [hp.wellFormed.eq_of_pos hr ht htb.symm heq, hterm'] at hterm
          cases hterm
        refine (hrest t ht htb hpos).tail ⟨?_, fun _ => htb ▸ hjoin, fun _ => ?_⟩
        · rw [Program.Follows, if_pos hterm', htb]
          exact ⟨b, hb, hk⟩
        · rw [(Program.firstInst_spec hp.wellFormed hk).2.1]
          exact hopen
      rcases covers_fromBlocks hp hplaced hc (fun _ _ h hstep => h.tail hstep) hstart hi hint hcov
        with hcov | h
      · exact hadded hcov
      · exact .inr h

theorem covers_fromEntry (hp : p.Finished) (hplaced : p.Placed) (hc : c.Framed p)
    (hi : i < p.insts.size) (hint : p.isInteresting i = true)
    (hcov : (c.fromEntry p f T).covers p i = true) :
    T.covers p i = true ∨
      (∃ k, p.start? f = some k ∧ ReflTransGen (c.Step p) k i) ∧ c.code.covers p i = false := by
  refine covers_fromBlocks hp hplaced hc (P := fun i => ∃ k, p.start? f = some k ∧
    ReflTransGen (c.Step p) k i) ?_ ?_ hi hint hcov
  · rintro i j ⟨k, hk, hpath⟩ hstep
    exact ⟨k, hk, hpath.tail hstep⟩
  · intro b hb _ k hk
    refine ⟨k, ?_, .refl⟩
    rw [Program.start?, Option.mem_toList.1 hb]
    exact hk

end Cut

/-- The functions entered from some defined ones on are those that these reach. -/
theorem Subject.Prepared.mem_functionsFrom_iff {p : Program} {c : Config} {s : Subject}
    (h : s.Prepared p c) {start : List FuncId} {g : FuncId}
    (hstart : ∀ f ∈ start, (p.func f).isDeclaration = false) :
    g ∈ s.functionsFrom start ↔ ∃ f ∈ start, s.calls.Reaches f g := by
  obtain rfl := h.program
  have hedge : Search.Edge s.program.funcs.size (fun f => (s.calls.edgesFrom f).map (·.callee)) =
      fun a b => ∃ e ∈ s.calls.edges, e.caller = a ∧ e.callee = b := by
    funext a b
    exact propext (Components.edge_iff h.defined)
  rw [functionsFrom, IdSet.mem_filter, mem_reachable_iff, hedge, Bool.not_eq_true']
  constructor
  · rintro ⟨⟨f, hf, -, hreach⟩, -⟩
    exact ⟨f, hf, hreach⟩
  · rintro ⟨f, hf, hreach⟩
    refine ⟨⟨f, hf, Program.lt_of_defined (hstart f hf), hreach⟩, ?_⟩
    rcases hreach.cases_tail with rfl | ⟨_, -, e, he, -, rfl⟩
    · exact hstart _ hf
    · exact h.defined e he

end DataRace
