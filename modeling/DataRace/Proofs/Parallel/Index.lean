import DataRace.Proofs.Parallel.Trunk

/-!
# DataRace.Proofs.Parallel.Index

The sides of forks that an instruction is on, against the code on the sides of
a fork.

The code of a fork is kept at three granularities, and the index that is built
from it has the sides of functions, blocks and instructions
(`PointIndex.getD_ofCode`).  The sides of an instruction are looked up at each
of them.  An instruction is found once per fork and side, since code that is
inside at a coarser granularity is dropped from the finer ones
(`CodeSet.Pruned`), the code of a forked thread is kept by function only, and
no spawn is a parallel loop (`Parallelism.Indexed`).

* `Parallelism.mem_pointsOf_trunk`, `Parallelism.mem_pointsOf_branch` — the sides are those whose
  code has the instruction;
* `Parallelism.nodup_pointsOf` — each of them once;
* `Parallelism.mem_mayRunParallel`, `Parallelism.mem_parallelPoints` — two instructions may run at
  the same time under the forks that have them on different sides;
* `Parallelism.agreement` — all questions about the sides of forks have agreeing answers.
-/

namespace DataRace

open Std

/-! ## code without redundancy -/

namespace CodeSet

variable {p : Program} {a : CodeSet}

/-- No code is inside at two granularities. -/
structure Pruned (a : CodeSet) (p : Program) : Prop where
  inst : ∀ i ∈ a.insts, p.blockOf i ∉ a.blocks ∧ p.funcOf i ∉ a.funcs
  block : ∀ b ∈ a.blocks, (p.block b).func ∉ a.funcs

theorem pruned_reduce (a : CodeSet) (p : Program) : (a.reduce p).Pruned p where
  inst i hi := by
    simp only [reduce, IdSet.mem_filter, Bool.and_eq_true, Bool.not_eq_true', ← Bool.not_eq_true,
      TreeSet.contains_iff_mem] at hi ⊢
    exact ⟨fun h => hi.2.1 h.1, hi.2.2⟩
  block b hb := by
    simp only [reduce, IdSet.mem_filter, Bool.not_eq_true', ← Bool.not_eq_true,
      TreeSet.contains_iff_mem] at hb ⊢
    exact hb.2

end CodeSet

namespace IdMap

variable {α : Type} {m : IdMap α}

/-- What is listed key by key has no duplicates if the key can be told from each element. -/
theorem nodup_flatMap_toList {β : Type} {f : Nat × α → List β} (key : β → Nat)
    (hnodup : ∀ e ∈ m.toList, (f e).Nodup) (hkey : ∀ e ∈ m.toList, ∀ b ∈ f e, key b = e.1) :
    (m.toList.flatMap f).Nodup := by
  refine List.nodup_flatMap.2 ⟨hnodup, ?_⟩
  refine (TreeMap.distinct_keys_toList (t := m)).imp_of_mem fun {e e'} he he' hne b hb hb' => hne ?_
  rw [LawfulEqCmp.compare_eq_iff_eq, ← hkey e he b hb, ← hkey e' he' b hb']

end IdMap

/-! ## building the index -/

namespace PointIndex

variable {index : IdMap (List Point)} {t : PointIndex} {ids : IdSet} {points : List Point}

/-- The points of a key are those it had, and the ones that are pushed for its set. -/
theorem getD_push {k : Nat} : (push index ids points).getD k [] =
    index.getD k [] ++ if k ∈ ids then points else [] := by
  have hfold (xs : List Nat) (hxs : xs.Nodup) (index : IdMap (List Point)) :
      (xs.foldl (fun index x => index.insert x (index.getD x [] ++ points)) index).getD k [] =
        index.getD k [] ++ if k ∈ xs then points else [] := by
    induction xs generalizing index with
    | nil => simp
    | cons x xs ih =>
      obtain ⟨hx, hxs⟩ := List.nodup_cons.1 hxs
      rw [List.foldl_cons, ih hxs, IdMap.getD_insert]
      by_cases heq : x = k
      · subst heq
        simp [hx]
      · simp [heq, Ne.symm heq]
  rw [push, TreeSet.foldl_eq_foldl_toList, hfold ids.toList (IdSet.nodup_toList ids)]
  simp only [TreeSet.mem_toList]

theorem mem_push {k : Nat} : k ∈ push index ids points ↔ k ∈ index ∨ k ∈ ids := by
  have hfold (xs : List Nat) (index : IdMap (List Point)) :
      k ∈ xs.foldl (fun index x => index.insert x (index.getD x [] ++ points)) index ↔
        k ∈ index ∨ k ∈ xs := by
    induction xs generalizing index with
    | nil => simp
    | cons x xs ih =>
      rw [List.foldl_cons, ih, TreeMap.mem_insert, LawfulEqCmp.compare_eq_iff_eq, List.mem_cons,
        @eq_comm _ x k, or_comm (a := k = x), or_assoc]
  rw [push, TreeSet.foldl_eq_foldl_toList, hfold, TreeSet.mem_toList]

/-- The keys are those that have points. -/
def Filled (index : IdMap (List Point)) : Prop := ∀ k : Nat, k ∈ index ↔ index.getD k [] ≠ []

theorem Filled.push (h : Filled index) (ids : IdSet) (hne : points ≠ []) :
    Filled (push index ids points) := by
  intro k
  rw [mem_push, getD_push, Ne, List.append_eq_nil_iff, not_and_or, h k]
  refine or_congr_right ?_
  split
  · next hk => simp [hk, hne]
  · next hk => simp [hk]

/-- The sides that code on the sides of forks adds to the index. -/
theorem getD_foldl_addFork (es : List (Nat × ForkCode)) (t : PointIndex) (k : Nat) :
    (es.foldl (fun t e => t.addFork e.1 e.2) t).insts.getD k [] = t.insts.getD k [] ++
        (es.flatMap fun e => if k ∈ e.2.trunk.insts then [.trunk e.1] else []) ∧
      (es.foldl (fun t e => t.addFork e.1 e.2) t).blocks.getD k [] = t.blocks.getD k [] ++
        (es.flatMap fun e => if k ∈ e.2.trunk.blocks then [.trunk e.1] else []) ∧
      (es.foldl (fun t e => t.addFork e.1 e.2) t).funcs.getD k [] = t.funcs.getD k [] ++
        es.flatMap fun e => (if k ∈ e.2.trunk.funcs then [.trunk e.1] else []) ++
          if k ∈ e.2.branch.funcs then [.branch e.1] else [] := by
  induction es generalizing t with
  | nil => simp
  | cons e es ih =>
    obtain ⟨hinsts, hblocks, hfuncs⟩ := ih (t.addFork e.1 e.2)
    rw [List.foldl_cons, hinsts, hblocks, hfuncs]
    simp only [addFork, getD_push, List.flatMap_cons, List.append_assoc, and_self]

/-- The sides that parallel loops add to the index. -/
theorem getD_foldl_addLoop (es : List (Nat × CodeSet)) (t : PointIndex) (k : Nat) :
    (es.foldl (fun t e => t.addLoop e.1 e.2) t).insts = t.insts ∧
      (es.foldl (fun t e => t.addLoop e.1 e.2) t).blocks = t.blocks ∧
      (es.foldl (fun t e => t.addLoop e.1 e.2) t).funcs.getD k [] = t.funcs.getD k [] ++
        es.flatMap fun e => if k ∈ e.2.funcs then [.trunk e.1, .branch e.1] else [] := by
  induction es generalizing t with
  | nil => simp
  | cons e es ih =>
    obtain ⟨hinsts, hblocks, hfuncs⟩ := ih (t.addLoop e.1 e.2)
    refine ⟨hinsts, hblocks, ?_⟩
    rw [List.foldl_cons, hfuncs]
    simp only [addLoop, getD_push, List.flatMap_cons, List.append_assoc]

/-- **The index inverts the code**: each list has the sides whose code has its key. -/
theorem getD_ofCode (code : IdMap ForkCode) (loops : IdMap CodeSet) (k : Nat) :
    (ofCode code loops).insts.getD k [] =
        (code.toList.flatMap fun e => if k ∈ e.2.trunk.insts then [.trunk e.1] else []) ∧
      (ofCode code loops).blocks.getD k [] =
        (code.toList.flatMap fun e => if k ∈ e.2.trunk.blocks then [.trunk e.1] else []) ∧
      (ofCode code loops).funcs.getD k [] =
        (code.toList.flatMap fun e => (if k ∈ e.2.trunk.funcs then [.trunk e.1] else []) ++
          if k ∈ e.2.branch.funcs then [.branch e.1] else []) ++
        loops.toList.flatMap fun e => if k ∈ e.2.funcs then [.trunk e.1, .branch e.1] else [] := by
  rw [ofCode, TreeMap.foldl_eq_foldl_toList, TreeMap.foldl_eq_foldl_toList]
  obtain ⟨hinsts, hblocks, hfuncs⟩ := getD_foldl_addLoop loops.toList
    (code.toList.foldl (fun t e => t.addFork e.1 e.2) {}) k
  obtain ⟨hinsts', hblocks', hfuncs'⟩ := getD_foldl_addFork code.toList {} k
  rw [hinsts, hblocks, hfuncs, hinsts', hblocks', hfuncs']
  simp only [TreeMap.getD_emptyc, List.nil_append, and_self]

/-- Every key of the index is on some side. -/
theorem filled_ofCode (code : IdMap ForkCode) (loops : IdMap CodeSet) :
    Filled (ofCode code loops).insts ∧ Filled (ofCode code loops).blocks ∧
      Filled (ofCode code loops).funcs := by
  have hempty : Filled (∅ : IdMap (List Point)) := fun k => by
    simp [TreeMap.not_mem_emptyc]
  rw [ofCode, TreeMap.foldl_eq_foldl_toList, TreeMap.foldl_eq_foldl_toList]
  have hforks := List.foldlRecOn
    (motive := fun t : PointIndex => Filled t.insts ∧ Filled t.blocks ∧ Filled t.funcs)
    code.toList (fun t e => t.addFork e.1 e.2) (b := {}) ⟨hempty, hempty, hempty⟩
    fun t ⟨hinsts, hblocks, hfuncs⟩ e _ => ⟨hinsts.push _ (by simp), hblocks.push _ (by simp),
      (hfuncs.push _ (by simp)).push _ (by simp)⟩
  exact List.foldlRecOn
    (motive := fun t : PointIndex => Filled t.insts ∧ Filled t.blocks ∧ Filled t.funcs)
    loops.toList (fun t e => t.addLoop e.1 e.2) hforks
    fun t ⟨hinsts, hblocks, hfuncs⟩ e _ => ⟨hinsts, hblocks, hfuncs.push _ (by simp)⟩

end PointIndex

namespace Parallelism

/-! ## the sides of a fork -/

/-- The function of an instruction runs in a parallel loop. -/
def RunsInLoop (m : Parallelism) (p : Program) (site i : InstId) : Prop :=
  ∃ c, m.loops[site]? = some c ∧ p.funcOf i ∈ c.funcs

/-- An instruction is in the code of the forking thread after a fork; the iterations of a parallel
loop run beside each other. -/
def OnTrunk (m : Parallelism) (p : Program) (site i : InstId) : Prop :=
  (m.codeOf site).trunk.covers p i = true ∨ m.RunsInLoop p site i

/-- An instruction is in the code of the forked thread. -/
def OnBranch (m : Parallelism) (p : Program) (site i : InstId) : Prop :=
  (m.codeOf site).branch.covers p i = true ∨ m.RunsInLoop p site i

/-- How the code of forks is kept. -/
structure Indexed (m : Parallelism) (p : Program) : Prop where
  /-- The trunk of a spawn has nothing twice. -/
  pruned : ∀ {x : Nat} {c : ForkCode}, m.code[x]? = some c → c.trunk.Pruned p
  /-- The branch of a spawn has whole functions only. -/
  whole : ∀ {x : Nat} {c : ForkCode}, m.code[x]? = some c →
    (∀ b : Nat, b ∉ c.branch.blocks) ∧ ∀ i : Nat, i ∉ c.branch.insts
  /-- No spawn is a parallel loop. -/
  apart : ∀ {x : Nat} {c : ForkCode} {l : CodeSet}, m.code[x]? = some c →
    m.loops[x]? = some l → False

section

variable {m : Parallelism} {p : Program} {i j x : Nat} {a b : Point}

theorem codeOf_of_getElem? {c : ForkCode} (h : m.code[x]? = some c) : m.codeOf x = c :=
  IdMap.getD_of_getElem? h

theorem codeOf_of_none (h : m.code[x]? = none) : m.codeOf x = {} := by
  rw [codeOf, TreeMap.getD_eq_getD_getElem?, h, Option.getD_none]

theorem covers_empty : (∅ : CodeSet).covers p i = false := by
  rw [← Bool.not_eq_true, CodeSet.covers_iff]
  rintro (h | h | h) <;> exact absurd h TreeSet.not_mem_emptyc

/-- The code of a fork is recorded if it has an instruction. -/
theorem trunk_covers_iff : (m.codeOf x).trunk.covers p i = true ↔
    ∃ c, m.code[x]? = some c ∧ c.trunk.covers p i = true := by
  cases h : m.code[x]? with
  | none => simpa [codeOf_of_none h] using (covers_empty (p := p) (i := i))
  | some c => simp [codeOf_of_getElem? h]

theorem branch_covers_iff : (m.codeOf x).branch.covers p i = true ↔
    ∃ c, m.code[x]? = some c ∧ c.branch.covers p i = true := by
  cases h : m.code[x]? with
  | none => simpa [codeOf_of_none h] using (covers_empty (p := p) (i := i))
  | some c => simp [codeOf_of_getElem? h]

/-! ## looking up the sides -/

/-- The forks whose trunk passes a test, as points. -/
def trunksWith (m : Parallelism) (inside : CodeSet → Bool) : List Point :=
  (m.code.toList.filter fun e => inside e.2.trunk).map fun e => .trunk e.1

/-- The sides of spawns that have a function as a whole. -/
def sidesOfFunc (m : Parallelism) (f : FuncId) : List Point :=
  m.code.toList.flatMap fun e =>
    (if e.2.trunk.funcs.contains f then [Point.trunk e.1] else []) ++
      if e.2.branch.funcs.contains f then [Point.branch e.1] else []

/-- The sides of parallel loops that run a function. -/
def sidesOfLoops (m : Parallelism) (f : FuncId) : List Point :=
  m.loops.toList.flatMap fun e =>
    if e.2.funcs.contains f then [Point.trunk e.1, Point.branch e.1] else []

theorem eq_trunk (h : a.side = .trunk) : a = .trunk a.spawn := by
  rw [Point.trunk, ← h]

theorem eq_branch (h : a.side = .branch) : a = .branch a.spawn := by
  rw [Point.branch, ← h]

theorem trunksWith_eq {inside : CodeSet → Bool} : m.trunksWith inside =
    m.code.toList.flatMap fun e => if inside e.2.trunk then [Point.trunk e.1] else [] := by
  rw [trunksWith]
  induction m.code.toList with
  | nil => rfl
  | cons e es ih => by_cases h : inside e.2.trunk <;> simp [h, ih]

/-- The sides that are looked up in the index are those whose code has the instruction. -/
theorem pointsOf_eq : m.pointsOf p i = m.trunksWith (·.insts.contains i) ++
    m.trunksWith (·.blocks.contains (p.blockOf i)) ++ m.sidesOfFunc (p.funcOf i) ++
    m.sidesOfLoops (p.funcOf i) := by
  rw [pointsOf, m.points_eq, (PointIndex.getD_ofCode m.code m.loops i).1,
    (PointIndex.getD_ofCode m.code m.loops (p.blockOf i)).2.1,
    (PointIndex.getD_ofCode m.code m.loops (p.funcOf i)).2.2, trunksWith_eq, trunksWith_eq]
  simp only [sidesOfFunc, sidesOfLoops, TreeSet.contains_iff_mem, List.append_assoc]

theorem mem_trunksWith {inside : CodeSet → Bool} : a ∈ m.trunksWith inside ↔
    a.side = .trunk ∧ ∃ c, m.code[a.spawn]? = some c ∧ inside c.trunk = true := by
  simp only [trunksWith, List.mem_map, List.mem_filter]
  constructor
  · rintro ⟨⟨x, c⟩, ⟨hmem, hin⟩, rfl⟩
    exact ⟨rfl, c, TreeMap.mem_toList_iff_getElem?_eq_some.1 hmem, hin⟩
  · rintro ⟨hside, c, hget, hin⟩
    exact ⟨(a.spawn, c), ⟨TreeMap.mem_toList_iff_getElem?_eq_some.2 hget, hin⟩,
      (eq_trunk hside).symm⟩

theorem mem_sidesOfFunc {f : FuncId} : a ∈ m.sidesOfFunc f ↔ ∃ c, m.code[a.spawn]? = some c ∧
    (a.side = .trunk ∧ f ∈ c.trunk.funcs ∨ a.side = .branch ∧ f ∈ c.branch.funcs) := by
  simp only [sidesOfFunc, List.mem_flatMap]
  constructor
  · rintro ⟨⟨x, c⟩, hmem, ha⟩
    have hget := TreeMap.mem_toList_iff_getElem?_eq_some.1 hmem
    rcases List.mem_append.1 ha with ha | ha
    · rw [List.mem_ite_nil_right, List.mem_singleton, TreeSet.contains_iff_mem] at ha
      obtain ⟨hf, rfl⟩ := ha
      exact ⟨c, hget, .inl ⟨rfl, hf⟩⟩
    · rw [List.mem_ite_nil_right, List.mem_singleton, TreeSet.contains_iff_mem] at ha
      obtain ⟨hf, rfl⟩ := ha
      exact ⟨c, hget, .inr ⟨rfl, hf⟩⟩
  · rintro ⟨c, hget, hside⟩
    refine ⟨(a.spawn, c), TreeMap.mem_toList_iff_getElem?_eq_some.2 hget, List.mem_append.2 ?_⟩
    simp only [List.mem_ite_nil_right, List.mem_singleton, TreeSet.contains_iff_mem]
    exact hside.imp (fun h => ⟨h.2, eq_trunk h.1⟩) fun h => ⟨h.2, eq_branch h.1⟩

theorem mem_sidesOfLoops {f : FuncId} : a ∈ m.sidesOfLoops f ↔
    (a.side = .trunk ∨ a.side = .branch) ∧ ∃ c, m.loops[a.spawn]? = some c ∧ f ∈ c.funcs := by
  simp only [sidesOfLoops, List.mem_flatMap]
  constructor
  · rintro ⟨⟨x, c⟩, hmem, ha⟩
    have hget := TreeMap.mem_toList_iff_getElem?_eq_some.1 hmem
    rw [List.mem_ite_nil_right, List.mem_pair, TreeSet.contains_iff_mem] at ha
    obtain ⟨hf, rfl | rfl⟩ := ha
    · exact ⟨.inl rfl, c, hget, hf⟩
    · exact ⟨.inr rfl, c, hget, hf⟩
  · rintro ⟨hside, c, hget, hf⟩
    refine ⟨(a.spawn, c), TreeMap.mem_toList_iff_getElem?_eq_some.2 hget, ?_⟩
    rw [List.mem_ite_nil_right, List.mem_pair, TreeSet.contains_iff_mem]
    exact ⟨hf, hside.imp eq_trunk eq_branch⟩

theorem mem_pointsOf : a ∈ m.pointsOf p i ↔
    (∃ c, m.code[a.spawn]? = some c ∧ (a.side = .trunk ∧ c.trunk.covers p i = true ∨
      a.side = .branch ∧ p.funcOf i ∈ c.branch.funcs)) ∨
    (a.side = .trunk ∨ a.side = .branch) ∧ m.RunsInLoop p a.spawn i := by
  simp only [pointsOf_eq, List.mem_append, mem_trunksWith, mem_sidesOfFunc, mem_sidesOfLoops,
    CodeSet.covers_iff, TreeSet.contains_iff_mem, RunsInLoop]
  grind

/-- The trunks among the sides of an instruction are those that have it. -/
theorem mem_pointsOf_trunk : Point.trunk x ∈ m.pointsOf p i ↔ m.OnTrunk p x i := by
  rw [mem_pointsOf, OnTrunk, trunk_covers_iff]
  simp

/-- The branches among the sides of an instruction are those that have it. -/
theorem mem_pointsOf_branch (hm : m.Indexed p) : Point.branch x ∈ m.pointsOf p i ↔
    m.OnBranch p x i := by
  rw [mem_pointsOf, OnBranch, branch_covers_iff]
  refine or_congr (exists_congr fun c => and_congr_right fun hget => ?_) (by simp)
  simp [CodeSet.covers_iff, (hm.whole hget).1, (hm.whole hget).2]

/-- Every side of an instruction is a trunk or a branch. -/
theorem side_of_mem_pointsOf (h : a ∈ m.pointsOf p i) : a.side = .trunk ∨ a.side = .branch := by
  rw [mem_pointsOf] at h
  rcases h with ⟨c, -, h⟩ | ⟨h, -⟩
  · exact h.imp And.left And.left
  · exact h

/-- An instruction runs beside no other if it is on no side of a fork. -/
theorem isSequential_iff : m.isSequential p i = true ↔ m.pointsOf p i = [] := by
  have hfilled := PointIndex.filled_ofCode m.code m.loops
  rw [← m.points_eq] at hfilled
  obtain ⟨hinsts, hblocks, hfuncs⟩ := hfilled
  simp only [isSequential, pointsOf, Bool.and_eq_true, Bool.not_eq_true', ← Bool.not_eq_true,
    TreeMap.contains_iff_mem, hinsts i, hblocks (p.blockOf i), hfuncs (p.funcOf i), ne_eq, not_not,
    List.append_eq_nil_iff]

/-! ## each side once -/

theorem nodup_trunksWith {inside : CodeSet → Bool} : (m.trunksWith inside).Nodup := by
  rw [trunksWith_eq]
  refine IdMap.nodup_flatMap_toList Point.spawn (fun e _ => ?_) fun e _ b hb => ?_
  · split <;> simp
  · rw [List.mem_ite_nil_right, List.mem_singleton] at hb
    rw [hb.2]

theorem nodup_sidesOfFunc {f : FuncId} : (m.sidesOfFunc f).Nodup := by
  refine IdMap.nodup_flatMap_toList Point.spawn (fun e _ => ?_) fun e _ b hb => ?_
  · by_cases ht : f ∈ e.2.trunk.funcs <;> by_cases hb : f ∈ e.2.branch.funcs <;> simp [ht, hb]
  · simp only [List.mem_append, List.mem_ite_nil_right, List.mem_singleton] at hb
    rcases hb with ⟨-, rfl⟩ | ⟨-, rfl⟩ <;> rfl

theorem nodup_sidesOfLoops {f : FuncId} : (m.sidesOfLoops f).Nodup := by
  refine IdMap.nodup_flatMap_toList Point.spawn (fun e _ => ?_) fun e _ b hb => ?_
  · by_cases hf : f ∈ e.2.funcs <;> simp [hf]
  · rw [List.mem_ite_nil_right, List.mem_pair] at hb
    rcases hb with ⟨-, rfl | rfl⟩ <;> rfl

/-- An instruction is on each side once. -/
theorem nodup_pointsOf (hm : m.Indexed p) (hplaced : p.Placed) (hi : i < p.insts.size) :
    (m.pointsOf p i).Nodup := by
  rw [pointsOf_eq]
  refine List.nodup_append'.2 ⟨List.nodup_append'.2 ⟨List.nodup_append'.2 ⟨nodup_trunksWith,
    nodup_trunksWith, ?_⟩, nodup_sidesOfFunc, ?_⟩, nodup_sidesOfLoops, ?_⟩
  · -- inside on its own and through its block
    intro a ha hb
    obtain ⟨-, c, hget, hin⟩ := mem_trunksWith.1 ha
    obtain ⟨-, d, hget', hblock⟩ := mem_trunksWith.1 hb
    obtain rfl := Option.some.inj (hget.symm.trans hget')
    exact ((hm.pruned hget).inst i (TreeSet.contains_iff_mem.1 hin)).1
      (TreeSet.contains_iff_mem.1 hblock)
  · -- at a fine granularity and as part of its function
    intro a ha hb
    obtain ⟨d, hget', hfunc⟩ := mem_sidesOfFunc.1 hb
    have htrunk : a.side = .trunk ∧ ∃ c, m.code[a.spawn]? = some c ∧
        p.funcOf i ∉ c.trunk.funcs := by
      rcases List.mem_append.1 ha with ha | ha
      · obtain ⟨hside, c, hget, hin⟩ := mem_trunksWith.1 ha
        exact ⟨hside, c, hget, ((hm.pruned hget).inst i (TreeSet.contains_iff_mem.1 hin)).2⟩
      · obtain ⟨hside, c, hget, hin⟩ := mem_trunksWith.1 ha
        exact ⟨hside, c, hget,
          hplaced i hi ▸ (hm.pruned hget).block _ (TreeSet.contains_iff_mem.1 hin)⟩
    obtain ⟨hside, c, hget, hnot⟩ := htrunk
    obtain rfl := Option.some.inj (hget.symm.trans hget')
    rcases hfunc with ⟨-, hfunc⟩ | ⟨hbranch, -⟩
    · exact hnot hfunc
    · rw [hside] at hbranch
      cases hbranch
  · -- under a spawn and under a parallel loop
    intro a ha hb
    obtain ⟨-, l, hloop, -⟩ := mem_sidesOfLoops.1 hb
    have hcode : ∃ c, m.code[a.spawn]? = some c := by
      simp only [List.mem_append, mem_trunksWith, mem_sidesOfFunc] at ha
      rcases ha with (⟨-, c, hget, -⟩ | ⟨-, c, hget, -⟩) | ⟨c, hget, -⟩ <;> exact ⟨c, hget⟩
    obtain ⟨c, hget⟩ := hcode
    exact hm.apart hget hloop

/-! ## instructions that may run at the same time -/

theorem opposite_iff (ha : a.side = .trunk ∨ a.side = .branch) : opposite a b = true ↔
    a.spawn = b.spawn ∧
    (a.side = .trunk ∧ b.side = .branch ∨ a.side = .branch ∧ b.side = .trunk) := by
  rw [opposite, Bool.and_eq_true, decide_eq_true_iff]
  refine and_congr_right fun _ => ?_
  rcases ha with ha | ha <;> rw [ha] <;> cases b.side <;> simp [Side.opposite]

/-- Two instructions are on different sides of a fork. -/
def Opposed (m : Parallelism) (p : Program) (x i j : InstId) : Prop :=
  m.OnTrunk p x i ∧ m.OnBranch p x j ∨ m.OnBranch p x i ∧ m.OnTrunk p x j

theorem opposed_comm : m.Opposed p x i j ↔ m.Opposed p x j i := by
  rw [Opposed, Opposed, or_comm, and_comm, and_comm (a := m.OnTrunk p x i)]

/-- Points of two instructions that are different sides of a fork. -/
theorem exists_opposite_iff (hm : m.Indexed p) : (∃ a ∈ m.pointsOf p i, ∃ b ∈ m.pointsOf p j,
    opposite a b = true ∧ a.spawn = x) ↔ m.Opposed p x i j := by
  rw [Opposed, ← mem_pointsOf_trunk, ← mem_pointsOf_trunk, ← mem_pointsOf_branch hm,
    ← mem_pointsOf_branch hm]
  constructor
  · rintro ⟨⟨y, v⟩, ha, ⟨z, w⟩, hb, hopp, rfl⟩
    obtain ⟨rfl, ⟨rfl, rfl⟩ | ⟨rfl, rfl⟩⟩ := (opposite_iff (side_of_mem_pointsOf ha)).1 hopp
    · exact .inl ⟨ha, hb⟩
    · exact .inr ⟨ha, hb⟩
  · rintro (⟨ha, hb⟩ | ⟨ha, hb⟩)
    · exact ⟨_, ha, _, hb, by simp [opposite, Side.opposite], rfl⟩
    · exact ⟨_, ha, _, hb, by simp [opposite, Side.opposite], rfl⟩

/-- Two instructions may run at the same time under the forks that have them on different sides. -/
theorem mem_mayRunParallel (hm : m.Indexed p) : x ∈ m.mayRunParallel p i j ↔ m.Opposed p x i j := by
  rw [mayRunParallel, TreeSet.mem_ofList, ← exists_opposite_iff hm, List.contains_iff_mem]
  simp only [List.mem_map, List.mem_filter, List.any_eq_true]
  grind

/-! ## pairs of points -/

/-- Add a pair of points unless its mirror image is there already. -/
def addOneWay (kept : List (Point × Point)) (q : Point × Point) : List (Point × Point) :=
  if kept.contains (q.2, q.1) then kept else kept ++ [q]

/-- The pairs of points of two instructions that are different sides of one fork. -/
def oppositePairs (m : Parallelism) (p : Program) (i j : InstId) : List (Point × Point) :=
  (m.pointsOf p i).flatMap fun a => ((m.pointsOf p j).filter (opposite a)).map (a, ·)

theorem parallelPoints_eq : m.parallelPoints p i j =
    if i = j then (m.oppositePairs p i j).foldl addOneWay [] else m.oppositePairs p i j := rfl

variable {kept xs : List (Point × Point)} {q : Point × Point}

theorem mem_addOneWay_of_mem (h : q ∈ kept) (r : Point × Point) : q ∈ addOneWay kept r := by
  unfold addOneWay
  split
  · exact h
  · exact List.mem_append_left _ h

theorem mem_foldl_addOneWay_of_mem (h : q ∈ kept) : q ∈ xs.foldl addOneWay kept :=
  List.foldlRecOn (motive := (q ∈ ·)) xs addOneWay h fun _ hmem r _ => mem_addOneWay_of_mem hmem r

theorem mem_of_mem_foldl_addOneWay (h : q ∈ xs.foldl addOneWay kept) : q ∈ kept ∨ q ∈ xs := by
  induction xs generalizing kept with
  | nil => exact .inl h
  | cons r rs ih =>
    rcases ih h with h | h
    · unfold addOneWay at h
      split at h
      · exact .inl h
      · exact (List.mem_append.1 h).imp_right fun h =>
          List.mem_cons.2 (.inl (List.mem_singleton.1 h))
    · exact .inr (List.mem_cons_of_mem r h)

/-- A pair is kept, or its mirror image is. -/
theorem mem_or_mirror_mem_foldl_addOneWay (kept : List (Point × Point)) (h : q ∈ xs) :
    q ∈ xs.foldl addOneWay kept ∨ (q.2, q.1) ∈ xs.foldl addOneWay kept := by
  induction xs generalizing kept with
  | nil => cases h
  | cons r rs ih =>
    rw [List.foldl_cons]
    rcases List.mem_cons.1 h with rfl | h
    · by_cases hmirror : (q.2, q.1) ∈ kept
      · exact .inr (mem_foldl_addOneWay_of_mem (mem_addOneWay_of_mem hmirror q))
      · refine .inl (mem_foldl_addOneWay_of_mem ?_)
        rw [addOneWay, if_neg (List.contains_iff_mem.not.2 hmirror)]
        exact List.mem_append_right _ List.mem_cons_self
    · exact ih _ h

theorem mem_oppositePairs : q ∈ m.oppositePairs p i j ↔
    q.1 ∈ m.pointsOf p i ∧ q.2 ∈ m.pointsOf p j ∧ opposite q.1 q.2 = true := by
  simp only [oppositePairs, List.mem_flatMap, List.mem_map, List.mem_filter]
  constructor
  · rintro ⟨a, ha, b, ⟨hb, hopp⟩, rfl⟩
    exact ⟨ha, hb, hopp⟩
  · rintro ⟨ha, hb, hopp⟩
    exact ⟨q.1, ha, q.2, ⟨hb, hopp⟩, rfl⟩

/-- Pairs of points are listed for the forks that have the instructions on different sides. -/
theorem mem_parallelPoints (hm : m.Indexed p) :
    (∃ q ∈ m.parallelPoints p i j, q.1.spawn = x) ↔ m.Opposed p x i j := by
  have hpairs : (∃ q ∈ m.oppositePairs p i j, q.1.spawn = x) ↔ m.Opposed p x i j := by
    rw [← exists_opposite_iff hm]
    constructor
    · rintro ⟨q, hq, hx⟩
      obtain ⟨ha, hb, hopp⟩ := mem_oppositePairs.1 hq
      exact ⟨_, ha, _, hb, hopp, hx⟩
    · rintro ⟨a, ha, b, hb, hopp, hx⟩
      exact ⟨(a, b), mem_oppositePairs.2 ⟨ha, hb, hopp⟩, hx⟩
  rw [parallelPoints_eq, ← hpairs]
  split
  · constructor
    · rintro ⟨q, hq, hx⟩
      exact ⟨q, (mem_of_mem_foldl_addOneWay hq).resolve_left List.not_mem_nil, hx⟩
    · rintro ⟨q, hq, hx⟩
      -- The mirror image of a pair is under the same fork.
      rcases mem_or_mirror_mem_foldl_addOneWay [] hq with hmem | hmem
      · exact ⟨q, hmem, hx⟩
      · obtain ⟨ha, -, hopp⟩ := mem_oppositePairs.1 hq
        exact ⟨_, hmem, ((opposite_iff (side_of_mem_pointsOf ha)).1 hopp).1 ▸ hx⟩
  · rfl

theorem spawn_eq_of_mem_parallelPoints (h : q ∈ m.parallelPoints p i j) :
    q.1.spawn = q.2.spawn := by
  have hq : q ∈ m.oppositePairs p i j := by
    rw [parallelPoints_eq] at h
    split at h
    · exact (mem_of_mem_foldl_addOneWay h).resolve_left List.not_mem_nil
    · exact h
  obtain ⟨ha, -, hopp⟩ := mem_oppositePairs.1 hq
  exact ((opposite_iff (side_of_mem_pointsOf ha)).1 hopp).1

end

/-! ## what the analysis finds is indexed -/

variable {s : Subject} {ops : Operations} {m : Parallelism} {p : Program}

/-- The code of spawns and of parallel loops that the analysis finds. -/
theorem code_spec (h : analyze s ops = .ok m) {x : Nat} :
    (∀ {c : ForkCode}, m.code[x]? = some c → x ∈ ops.spawns ∧
      c = forkCode s (m.matched.getD x {}) x (effectSites s m.effects x)) ∧
    ∀ {l : CodeSet}, m.loops[x]? = some l → x ∈ ops.parallelFors := by
  unfold analyze at h
  obtain ⟨spawns, hspawns, h⟩ := exists_of_bind_eq_ok h
  obtain ⟨joins, -, h⟩ := exists_of_bind_eq_ok h
  obtain ⟨found, -, h⟩ := exists_of_bind_eq_ok h
  cases h
  refine ⟨fun {c} hc => ?_, fun {l} hl => ?_⟩
  · rw [TreeMap.getElem?_map, Option.map_eq_some_iff] at hc
    obtain ⟨t, ht, hc⟩ := hc
    exact ⟨((sitesOf_spec hspawns).1.1 ht).1, hc.symm⟩
  · rw [IdMap.getElem?_foldl_insert (f := fun i => some { funcs := s.functionsFrom (started s i) })
      (fun _ _ _ h => by cases h; rfl) (fun _ _ h => by cases h)] at hl
    by_contra hnot
    simp [hnot] at hl

theorem indexed_of_analyze (hs : s.program = p) (h : analyze s (.collect s) = .ok m) :
    m.Indexed p where
  pruned := fun {x c} hc => by
    rw [((code_spec h).1 hc).2, ← hs]
    exact CodeSet.pruned_reduce _ _
  whole := fun {x c} hc => by
    rw [((code_spec h).1 hc).2, forkCode]
    split <;> exact ⟨fun _ => TreeSet.not_mem_emptyc, fun _ => TreeSet.not_mem_emptyc⟩
  apart := fun {x c l} hc hl => by
    have hspawn := (List.mem_filter.1 ((code_spec h).1 hc).1).2
    have hloop := (List.mem_filter.1 ((code_spec h).2 hl)).2
    rw [Program.isSpawn, beq_iff_eq] at hspawn
    rw [Program.isParallelFor, hspawn] at hloop
    cases hloop

/-! ## the answers together -/

/-- All questions about the sides of forks have agreeing answers. -/
structure Agrees (m : Parallelism) (p : Program) : Prop where
  once : ∀ i < p.insts.size, (m.pointsOf p i).Nodup
  trunk : ∀ i < p.insts.size, ∀ x, Point.trunk x ∈ m.pointsOf p i ↔ m.OnTrunk p x i
  branch : ∀ i < p.insts.size, ∀ x, Point.branch x ∈ m.pointsOf p i ↔ m.OnBranch p x i
  sequential : ∀ i < p.insts.size, m.isSequential p i = true ↔ m.pointsOf p i = []
  symm : ∀ i < p.insts.size, ∀ j < p.insts.size,
    (m.mayRunParallel p i j).toList = (m.mayRunParallel p j i).toList
  parallel : ∀ i < p.insts.size, ∀ j < p.insts.size, ∀ x,
    x ∈ m.mayRunParallel p i j ↔ m.Opposed p x i j
  pairs : ∀ i < p.insts.size, ∀ j < p.insts.size, ∀ x,
    x ∈ m.mayRunParallel p i j ↔ ∃ q ∈ m.parallelPoints p i j, q.1.spawn = x ∧ q.2.spawn = x

theorem Indexed.agrees (hm : m.Indexed p) (hplaced : p.Placed) : m.Agrees p where
  once _ hi := nodup_pointsOf hm hplaced hi
  trunk _ _ _ := mem_pointsOf_trunk
  branch _ _ _ := mem_pointsOf_branch hm
  sequential _ _ := isSequential_iff
  symm i _ j _ := by
    refine TreeSet.Equiv.toList_eq (TreeSet.Equiv.of_forall_mem_iff fun x => ?_)
    rw [mem_mayRunParallel hm, mem_mayRunParallel hm, opposed_comm]
  parallel _ _ _ _ _ := mem_mayRunParallel hm
  pairs i _ j _ x := by
    rw [mem_mayRunParallel hm, ← mem_parallelPoints hm]
    refine exists_congr fun q => and_congr_right fun hq => ?_
    rw [spawn_eq_of_mem_parallelPoints hq, and_self_iff]

/-- The refinement leaves the code of forks as it is. -/
theorem Indexed.refine (hm : m.Indexed p) (s : Subject) : (m.refine s).Indexed p :=
  ⟨hm.pruned, hm.whole, hm.apart⟩

/-- The sides of an instruction and the code of the sides tell the same, before the refinement and
after it. -/
theorem agreement {c : Config} (hplaced : p.Placed) (hs : Subject.prepare p c = .ok s)
    (hm : analyze s (.collect s) = .ok m) : m.Agrees p ∧ (m.refine s).Agrees p := by
  have hindexed := indexed_of_analyze (Subject.prepared hs).program hm
  exact ⟨hindexed.agrees hplaced, (hindexed.refine s).agrees hplaced⟩

/-- A routine writes a global; a thread is started with it, then a parallel loop. -/
def loopBesideThread : List Command :=
  [.global "t" 0, .global "g" 0, .declare "main" 0, .declare "worker" 1, .declare "thread_create" 3,
    .declare "parallel_for" 2, .const 0,
    .body 1, .append 1 0 (.store 1 12), .append 1 0 (.ret none),
    .body 0, .append 0 1 (.call (.direct 2) [0, 3, 12]), .append 0 1 (.call (.direct 3) [3, 12]),
    .append 0 1 (.ret none)]

/-- The write runs beside itself in the loop. -/
theorem agreement_loopBesideThread : ∃ s m,
    Subject.prepare (Builder.ofScript loopBesideThread) {} = .ok s ∧
    analyze s (.collect s) = .ok m ∧ 3 ∈ m.mayRunParallel (Builder.ofScript loopBesideThread) 0 0 ∧
    m.Agrees (Builder.ofScript loopBesideThread) ∧
    (m.refine s).Agrees (Builder.ofScript loopBesideThread) := by
  have hplaced : (Builder.ofScript loopBesideThread).Placed := by
    unfold Program.Placed
    decide +kernel
  have hwrite : 0 < (Builder.ofScript loopBesideThread).insts.size := by decide +kernel
  have heval : (Subject.prepare (Builder.ofScript loopBesideThread) {}).toOption.any (fun s =>
      (analyze s (.collect s)).toOption.any fun m => m.loops[3]?.any fun c =>
        c.funcs.contains ((Builder.ofScript loopBesideThread).funcOf 0)) = true := by
    decide +kernel
  obtain ⟨s, hs, heval⟩ := exists_of_any_toOption heval
  obtain ⟨m, hm, heval⟩ := exists_of_any_toOption heval
  obtain ⟨c, hloop, hfunc⟩ := (Option.any_eq_true _ _).1 heval
  have hruns : m.RunsInLoop (Builder.ofScript loopBesideThread) 3 0 :=
    ⟨c, hloop, TreeSet.contains_iff_mem.1 hfunc⟩
  obtain ⟨hagrees, hrefined⟩ := agreement hplaced hs hm
  exact ⟨s, m, hs, hm, (hagrees.parallel 0 hwrite 0 hwrite 3).2 (.inl ⟨.inr hruns, .inr hruns⟩),
    hagrees, hrefined⟩

end Parallelism

end DataRace
