import DataRace.Parallel.Basic
import DataRace.Proofs.Flow.Through
import DataRace.Proofs.Parallel.Reach
import DataRace.Proofs.Parallel.Site

/-!
# DataRace.Proofs.Parallel.Join

Which joins are matched to a spawn outside loops, and the code they cut off.

A spawn outside loops has no walk over thread ids that a join would have to
match, so a join of the same function is matched as soon as its thread id may
be that of the spawn and it does not walk over thread ids itself
(`Subject.Awaits`).  What such joins cut off is what one of them dominates
(`Subject.CutOff`).

* `Parallelism.analyze_spec` — every spawn is matched to joins that are found;
* `JoinMatch.exact_of` — in its function they are those awaited;
* `Exact.covers_iff`, `Exact.step_iff`, `Exact.isEmpty_iff` — what they cut off.
-/

namespace DataRace

open Std

/-! ## lists of computations -/

section

variable {ε α β : Type}

theorem mem_of_mapM_eq_ok {f : α → Except ε β} {xs : List α} {ys : List β}
    (h : xs.mapM f = .ok ys) :
    (∀ y ∈ ys, ∃ x ∈ xs, f x = .ok y) ∧ ∀ x ∈ xs, ∃ y ∈ ys, f x = .ok y := by
  induction xs generalizing ys with
  | nil =>
    cases h
    exact ⟨fun y hy => absurd hy List.not_mem_nil, fun x hx => absurd hx List.not_mem_nil⟩
  | cons x xs ih =>
    rw [List.mapM_cons] at h
    obtain ⟨y, hy, h⟩ := exists_of_bind_eq_ok h
    obtain ⟨zs, hzs, h⟩ := exists_of_bind_eq_ok h
    cases h
    obtain ⟨hback, hforth⟩ := ih hzs
    constructor
    · intro z hz
      rcases List.mem_cons.1 hz with rfl | hz
      · exact ⟨x, List.mem_cons_self, hy⟩
      · obtain ⟨w, hw, hwz⟩ := hback z hz
        exact ⟨w, List.mem_cons_of_mem x hw, hwz⟩
    · intro w hw
      rcases List.mem_cons.1 hw with rfl | hw
      · exact ⟨y, List.mem_cons_self, hy⟩
      · obtain ⟨z, hz, hwz⟩ := hforth w hw
        exact ⟨z, List.mem_cons_of_mem y hz, hwz⟩

theorem mem_filterMapM_iff {f : α → Except ε (Option β)} {xs : List α} {ys : List β}
    (h : xs.filterMapM f = .ok ys) {y : β} : y ∈ ys ↔ ∃ x ∈ xs, f x = .ok (some y) := by
  induction xs generalizing ys with
  | nil =>
    cases h
    simp
  | cons x xs ih =>
    rw [List.filterMapM_cons] at h
    obtain ⟨o, ho, h⟩ := exists_of_bind_eq_ok h
    cases o with
    | none =>
      rw [ih h]
      simp [ho]
    | some z =>
      obtain ⟨zs, hzs, h⟩ := exists_of_bind_eq_ok h
      cases h
      simp only [List.mem_cons, ih hzs, exists_eq_or_imp, ho, Except.ok.injEq, Option.some.injEq]
      rw [eq_comm]

end

namespace Parallelism

variable {s : Subject}

/-- The sites are recorded with what is gathered about them. -/
theorem sitesOf_spec {is : List InstId} {sites : IdMap ThreadSite}
    (h : is.foldlM (fun (m : IdMap ThreadSite) i => do return m.insert i (← ThreadSite.of s i)) ∅ =
      .ok sites) :
    (∀ {i : Nat} {t : ThreadSite}, sites[i]? = some t ↔ i ∈ is ∧ ThreadSite.of s i = .ok t) ∧
      ∀ i ∈ is, ∃ t, ThreadSite.of s i = .ok t := by
  have hfold (is : List InstId) (m : IdMap ThreadSite)
    (h : is.foldlM (fun (m : IdMap ThreadSite) i =>
      do return m.insert i (← ThreadSite.of s i)) m = .ok sites) :
      (∀ (i : Nat) (t : ThreadSite), sites[i]? = some t ↔
        i ∈ is ∧ ThreadSite.of s i = .ok t ∨ i ∉ is ∧ m[i]? = some t) ∧
      ∀ i ∈ is, ∃ t, ThreadSite.of s i = .ok t := by
    induction is generalizing m with
    | nil =>
      cases h
      simp
    | cons j js ih =>
      rw [List.foldlM_cons] at h
      obtain ⟨m', hm', h⟩ := exists_of_bind_eq_ok h
      obtain ⟨u, hu, hm'⟩ := exists_of_bind_eq_ok hm'
      cases hm'
      obtain ⟨hget, hall⟩ := ih _ h
      refine ⟨fun i t => ?_, fun i hi => ?_⟩
      · rw [hget, TreeMap.getElem?_insert]
        by_cases hij : j = i
        · subst hij
          by_cases hj : j ∈ js <;> simp [hj, hu]
        · simp [hij, Ne.symm hij]
      · rcases List.mem_cons.1 hi with rfl | hi
        · exact ⟨u, hu⟩
        · exact hall i hi
  obtain ⟨hget, hall⟩ := hfold is ∅ h
  exact ⟨fun {i t} => by simpa using hget i t, hall⟩

/-- What the analysis finds about a spawn. -/
theorem analyze_spec {ops : Operations} {par : Parallelism} (h : analyze s ops = .ok par)
    {spawn : Nat} (hspawn : spawn ∈ ops.spawns) :
    ∃ (spawns joins : IdMap ThreadSite) (t : ThreadSite) (found : List InstId),
      (∀ {i : Nat}, i ∈ spawns.keys ↔ i ∈ ops.spawns) ∧
      (∀ {j : Nat} {u : ThreadSite}, joins[j]? = some u ↔
        j ∈ ops.joins ∧ ThreadSite.of s j = .ok u) ∧
      ThreadSite.of s spawn = .ok t ∧
      JoinMatch.of s t joins.values = .ok (found, par.matched.getD spawn {}) ∧
      par.effects = effectsOf s spawns.keys par.matched ∧
      par.codeOf spawn = forkCode s (par.matched.getD spawn {}) spawn
        (effectSites s par.effects spawn) := by
  unfold analyze at h
  obtain ⟨spawns, hspawns, h⟩ := exists_of_bind_eq_ok h
  obtain ⟨joins, hjoins, h⟩ := exists_of_bind_eq_ok h
  obtain ⟨found, hfound, h⟩ := exists_of_bind_eq_ok h
  cases h
  obtain ⟨hrecorded, hgathered⟩ := sitesOf_spec hspawns
  obtain ⟨t, ht⟩ := hgathered spawn hspawn
  have hget := hrecorded.2 ⟨hspawn, ht⟩
  -- The matches of a spawn are found once, under its own key.
  obtain ⟨hback, hforth⟩ := mem_of_mapM_eq_ok hfound
  have hentry (x : InstId × List InstId × JoinMatch) (hx : x ∈ found) (hkey : x.1 = spawn) :
      JoinMatch.of s t joins.values = .ok x.2 := by
    obtain ⟨⟨i, u⟩, hmem, hx⟩ := hback x hx
    obtain ⟨r, hr, hx⟩ := exists_of_bind_eq_ok hx
    cases hx
    rw [TreeMap.mem_toList_iff_getElem?_eq_some] at hmem
    change i = spawn at hkey
    rw [hkey, hget, Option.some.injEq] at hmem
    rw [hmem]
    exact hr
  obtain ⟨x, hx, hmatch⟩ := hforth (spawn, t) (TreeMap.mem_toList_iff_getElem?_eq_some.2 hget)
  obtain ⟨r, hr, hmatch⟩ := exists_of_bind_eq_ok hmatch
  cases hmatch
  have hmatched :
    (found.foldl (fun (m : IdMap JoinMatch) x => m.insert x.1 x.2.2) ∅).getD spawn {} =
      r.2 := by
    refine IdMap.getD_foldl_insert_of_forall ⟨_, hx, rfl⟩ fun y hy hkey => ?_
    have heq := (hentry y hy hkey).symm.trans hr
    rw [Except.ok.injEq] at heq
    rw [heq]
  refine ⟨spawns, joins, t, r.1, ?_, (sitesOf_spec hjoins).1, ht, ?_, rfl, ?_⟩
  · intro i
    rw [TreeMap.mem_keys, TreeMap.mem_iff_isSome_getElem?, Option.isSome_iff_exists]
    constructor
    · rintro ⟨u, hu⟩
      exact (hrecorded.1 hu).1
    · intro hi
      obtain ⟨u, hu⟩ := hgathered i hi
      exact ⟨u, hrecorded.2 ⟨hi, hu⟩⟩
  · rw [hr]
    exact congrArg Except.ok (Prod.ext rfl hmatched.symm)
  · rw [codeOf, TreeMap.getD_map, hget]
    rfl

/-- Something is gathered about every join. -/
theorem exists_site_of_join {ops : Operations} {par : Parallelism} (h : analyze s ops = .ok par)
    {join : Nat} (hjoin : join ∈ ops.joins) : ∃ u, ThreadSite.of s join = .ok u := by
  unfold analyze at h
  obtain ⟨spawns, -, h⟩ := exists_of_bind_eq_ok h
  obtain ⟨joins, hjoins, -⟩ := exists_of_bind_eq_ok h
  exact (sitesOf_spec hjoins).2 join hjoin

end Parallelism

/-! ## matched joins -/

namespace Subject

variable {s : Subject} {spawn join : InstId}

/-- A join of the same function that may wait for the thread of a spawn outside loops, and does not
walk over thread ids in a loop. -/
structure Awaits (s : Subject) (spawn join : InstId) : Prop where
  live : join ∈ (Operations.collect s).joins
  sameFunc : s.program.funcOf join = s.program.funcOf spawn
  mayAlias : ∃ x y, ThreadSite.tidPointer? s.program spawn = some x ∧
    ThreadSite.tidPointer? s.program join = some y ∧ s.pointers.mayAlias x y = true
  straight : ∃ t, ThreadSite.of s join = .ok t ∧ t.loop = none

/-- An instruction that an awaited join dominates. -/
def CutOff (s : Subject) (spawn i : InstId) : Prop :=
  ∃ j, s.Awaits spawn j ∧ j ≠ i ∧ s.dominates j i = true

/-- Control passes on, neither from the end of a block with an awaited join nor into a block that is
cut off. -/
structure OpenStep (s : Subject) (spawn i j : InstId) : Prop where
  follows : s.program.Follows i j
  leaves : (s.program.op i).isTerminator = true →
    ∀ k, s.Awaits spawn k → s.program.blockOf k ≠ s.program.blockOf i
  enters : (s.program.op i).isTerminator = true → ¬s.CutOff spawn j

/-- An awaited join dominates no load, store or call, and nothing outside its block. -/
def CutsNothing (s : Subject) (spawn : InstId) : Prop :=
  ∀ j i, s.Awaits spawn j → i < s.program.insts.size → j ≠ i → s.dominates j i = true →
    s.program.blockOf i = s.program.blockOf j ∧ s.program.isInteresting i = false

theorem Awaits.isCall (h : s.Awaits spawn join) : (s.program.op join).isCall = true := by
  have hjoin := (List.mem_filter.1 h.live).2
  exact Program.isCall_of_libraryCall (eq_of_beq hjoin)

theorem Awaits.lt (h : s.Awaits spawn join) : join < s.program.insts.size :=
  Program.lt_of_isCall h.isCall

/-- A block is cut off if its first instruction is. -/
theorem cutOff_firstInst_iff {p : Program} {c : Config} (hp : s.program.Finished)
    (hplaced : s.program.Placed) (h : s.Prepared p c) {b k : Nat}
    (hfirst : s.program.firstInst b = some k) : s.CutOff spawn k ↔
      ∃ j, s.Awaits spawn j ∧ b ≠ s.program.blockOf j ∧
        (FlowGraph.forward s.program (s.program.funcOf spawn)).Dom (s.program.blockOf j) b := by
  obtain ⟨hk, hkb, -, hbefore⟩ := Program.firstInst_spec hp.wellFormed hfirst
  refine exists_congr fun j => and_congr_right fun hj => ?_
  rw [dominates_iff hp h hj.lt, hkb, hj.sameFunc]
  constructor
  · rintro ⟨hne, -, hdom⟩
    split at hdom
    · next hblock =>
      -- In front of the first instruction there are only phis.
      have hlt : (s.program.inst j).pos < (s.program.inst k).pos := by
        refine Nat.lt_of_le_of_ne hdom fun heq => hne ?_
        exact hp.wellFormed.eq_of_pos hj.lt hk (hblock.trans hkb.symm) heq
      have hphi := hbefore j hj.lt hblock hlt
      rw [Program.isPhi_of_isCall hj.isCall] at hphi
      cases hphi
    · next hblock => exact ⟨Ne.symm hblock, hdom⟩
  · rintro ⟨hne, hdom⟩
    have hfunc := (hp.wellFormed.mem_blocks_iff.1 (hp.mem_blocks_of_reached b hdom.reached)).2
    refine ⟨fun heq => hne (heq ▸ hkb.symm), ?_, ?_⟩
    · rw [← hplaced k hk, hkb, hfunc]
    · rw [if_neg (Ne.symm hne)]
      exact hdom

end Subject

namespace JoinMatch

variable {s : Subject} {spawn join : ThreadSite} {found : List (InstId × Blocker)} {f : FuncId}

/-- A join in the function of the spawn blocks code only if the thread ids may be the same; the
recorded loops say where. -/
theorem blocker?_eq_some_iff (hfunc : s.program.funcOf join.site = s.program.funcOf spawn.site)
    {b : Blocker} : blocker? s spawn join = .ok (some b) ↔
      (if spawn.loop = join.loop then b = .inst join.site
        else ∃ l, loopExit? s spawn join = .ok (some l) ∧ b = .block l) ∧
      ∃ x y, spawn.tidPtr = some x ∧ join.tidPtr = some y ∧ s.pointers.mayAlias x y = true := by
  unfold blocker?
  cases hx : spawn.tidPtr with
  | none => simp [pure, Except.pure]
  | some x =>
    cases hy : join.tidPtr with
    | none => simp [pure, Except.pure]
    | some y =>
      cases halias : s.pointers.mayAlias x y with
      | false => simp [halias, pure, Except.pure]
      | true =>
        by_cases hloop : spawn.loop = join.loop
        · simp [halias, hfunc, hloop, pure, Except.pure, @eq_comm _ b]
        · cases loopExit? s spawn join with
          | error e => simp [halias, hfunc, hloop, bind, Except.bind]
          | ok o =>
            cases o <;>
              simp [halias, hfunc, hloop, bind, Except.bind, pure, Except.pure, @eq_comm _ b]

/-- Outside loops a join in the function of the spawn blocks the code after it, or nothing. -/
theorem blocker?_of_straight (hloop : spawn.loop = none)
    (hfunc : s.program.funcOf join.site = s.program.funcOf spawn.site) {b : Blocker} :
    blocker? s spawn join = .ok (some b) ↔ b = .inst join.site ∧ join.loop = none ∧
      ∃ x y, spawn.tidPtr = some x ∧ join.tidPtr = some y ∧ s.pointers.mayAlias x y = true := by
  have hexit : loopExit? s spawn join = .ok none := by
    rw [loopExit?, hloop]
    rfl
  rw [blocker?_eq_some_iff hfunc, hloop]
  cases hj : join.loop with
  | none => simp
  | some l => simp [hexit]

theorem mem_blockersIn_ofBlockers {b : Blocker} : b ∈ (ofBlockers s found).blockersIn f ↔
    ∃ j, (j, b) ∈ found ∧ s.program.funcOf j = f := by
  have hfold : (ofBlockers s found).blockers = found.foldl (fun (m : IdMap (List Blocker)) x =>
      m.insert (s.program.funcOf x.1) (m.getD (s.program.funcOf x.1) [] ++ [x.2])) ∅ := rfl
  rw [blockersIn, hfold, IdMap.mem_getD_foldl_append]
  simp

theorem cutIn_ofBlockers : (ofBlockers s found).cutIn f =
    ((ofBlockers s found).blockersIn f).foldl (Cut.add s.program (s.flow f).dom) {} := by
  have hcuts : (ofBlockers s found).cuts = (ofBlockers s found).blockers.map fun f bs =>
      bs.foldl (Cut.add s.program (s.flow f).dom) {} := rfl
  rw [cutIn, hcuts, TreeMap.getD_map, blockersIn, TreeMap.getD_eq_getD_getElem?]
  cases (ofBlockers s found).blockers[f]? <;> rfl

/-- The blockers in a function are those of the joins in it. -/
theorem mem_blockersIn_iff {joins : IdMap ThreadSite} {js : List InstId} {m : JoinMatch}
    (hjoins : ∀ {j : Nat} {u : ThreadSite},
      joins[j]? = some u ↔ j ∈ (Operations.collect s).joins ∧ ThreadSite.of s j = .ok u)
    (h : JoinMatch.of s spawn joins.values = .ok (js, m)) {b : Blocker} :
    b ∈ m.blockersIn f ↔ ∃ u, u.site ∈ (Operations.collect s).joins ∧
      ThreadSite.of s u.site = .ok u ∧ s.program.funcOf u.site = f ∧
      blocker? s spawn u = .ok (some b) := by
  unfold JoinMatch.of at h
  obtain ⟨found, hfound, h⟩ := exists_of_bind_eq_ok h
  cases h
  rw [mem_blockersIn_ofBlockers]
  constructor
  · rintro ⟨j, hj, hfunc⟩
    obtain ⟨u, hu, hb⟩ := (mem_filterMapM_iff hfound).1 hj
    obtain ⟨o, ho, hb⟩ := exists_of_bind_eq_ok hb
    obtain ⟨k, hk⟩ := IdMap.mem_values.1 hu
    cases o with
    | none => cases hb
    | some b' =>
      cases hb
      obtain ⟨hlive, hof⟩ := hjoins.1 hk
      obtain rfl : u.site = k := (ThreadSite.gathered hof).site
      exact ⟨u, hlive, hof, hfunc, ho⟩
  · rintro ⟨u, hlive, hof, hfunc, hb⟩
    refine ⟨u.site, (mem_filterMapM_iff hfound).2 ⟨u, ?_, ?_⟩, hfunc⟩
    · exact IdMap.mem_values.2 ⟨u.site, hjoins.2 ⟨hlive, hof⟩⟩
    · rw [hb]
      rfl

/-- The blockers in the function of a spawn are the awaited joins, and cut its code. -/
structure Exact (s : Subject) (i : InstId) (m : JoinMatch) : Prop where
  mem_iff : ∀ {b : Blocker}, b ∈ m.blockersIn (s.program.funcOf i) ↔ ∃ j, s.Awaits i j ∧ b = .inst j
  cutIn_eq : m.cutIn (s.program.funcOf i) = (m.blockersIn (s.program.funcOf i)).foldl
    (Cut.add s.program (s.flow (s.program.funcOf i)).dom) {}

/-- A spawn outside loops is matched to the awaited joins of its function. -/
theorem exact_of {i : InstId} {joins : IdMap ThreadSite} {js : List InstId} {m : JoinMatch}
    (hjoins : ∀ {j : Nat} {u : ThreadSite},
      joins[j]? = some u ↔ j ∈ (Operations.collect s).joins ∧ ThreadSite.of s j = .ok u)
    (hspawn : ThreadSite.of s i = .ok spawn)
    (hloop : (s.flowOf i).loops.loopOfInst s.program i = none)
    (h : JoinMatch.of s spawn joins.values = .ok (js, m)) : Exact s i m := by
  have hgathered := ThreadSite.gathered hspawn
  have hnone := hgathered.loop_eq_none hloop
  have hsite := hgathered.site
  have htid := hgathered.tidPtr
  constructor
  case mem_iff =>
    intro b
    rw [mem_blockersIn_iff hjoins h]
    constructor
    · rintro ⟨u, hlive, hof, hfunc, hb⟩
      have hutid := (ThreadSite.gathered hof).tidPtr
      obtain ⟨rfl, hstraight, x, y, hx, hy, halias⟩ :=
        (blocker?_of_straight hnone (hsite ▸ hfunc)).1 hb
      exact ⟨u.site, ⟨hlive, hfunc, ⟨x, y, htid ▸ hx, hutid ▸ hy, halias⟩, u, hof, hstraight⟩, rfl⟩
    · rintro ⟨j, ⟨hlive, hfunc, ⟨x, y, hx, hy, halias⟩, u, hof, hstraight⟩, rfl⟩
      obtain rfl := (ThreadSite.gathered hof).site
      have hutid := (ThreadSite.gathered hof).tidPtr
      refine ⟨u, hlive, hof, hfunc, (blocker?_of_straight hnone (hsite ▸ hfunc)).2 ?_⟩
      exact ⟨rfl, hstraight, x, y, htid.trans hx, hutid.trans hy, halias⟩
  case cutIn_eq =>
    unfold JoinMatch.of at h
    obtain ⟨found, -, h⟩ := exists_of_bind_eq_ok h
    cases h
    exact cutIn_ofBlockers

/-! ## what is cut off -/

variable {p : Program} {m : JoinMatch}

theorem foldl_addBlock_eq (bs : List BlockId) (T : CodeSet) : bs.foldl .addBlock T =
    { T with blocks := bs.foldl (·.insert ·) T.blocks } := by
  induction bs generalizing T with
  | nil => rfl
  | cons b bs ih => exact ih (T.addBlock b)

/-- What joins cut off: blocks below theirs, and the rest of their blocks. -/
theorem foldl_add (hp : p.Finished) (dom : Dominance)
    {bs : List Blocker} (hbs : ∀ b ∈ bs, ∃ j, b = .inst j) (c : Cut) :
    (bs.foldl (Cut.add p dom) c).code.funcs = c.code.funcs ∧
    (∀ b : Nat, b ∈ (bs.foldl (Cut.add p dom) c).code.blocks ↔ b ∈ c.code.blocks ∨
      ∃ j, .inst j ∈ bs ∧ b ∈ dom.descendants (p.blockOf j) ∧ b ≠ p.blockOf j) ∧
    (∀ k : Nat, k ∈ (bs.foldl (Cut.add p dom) c).code.insts ↔ k ∈ c.code.insts ∨
      ∃ j, .inst j ∈ bs ∧ k < p.insts.size ∧ p.blockOf k = p.blockOf j ∧
        (p.inst j).pos < (p.inst k).pos ∧ p.isInteresting k = true) ∧
    ∀ b : Nat, b ∈ (bs.foldl (Cut.add p dom) c).joinBlocks ↔ b ∈ c.joinBlocks ∨
      ∃ j, .inst j ∈ bs ∧ p.blockOf j = b := by
  induction bs generalizing c with
  | nil => simp
  | cons x xs ih =>
    obtain ⟨i, rfl⟩ := hbs x List.mem_cons_self
    obtain ⟨hfuncs, hblocks, hinsts, hjoins⟩ := ih (fun b hb => hbs b (List.mem_cons_of_mem _ hb))
      (c.add p dom (.inst i))
    have hadd : c.add p dom (.inst i) =
        { code :=
            { funcs := c.code.funcs
              blocks := ((dom.descendants (p.blockOf i)).filter
                (· != p.blockOf i)).foldl (·.insert ·)
                c.code.blocks
              insts := (({} : Cut).openInsts p (p.instsAfter i)).foldl (·.insert ·) c.code.insts }
          joinBlocks := c.joinBlocks.insert (p.blockOf i) } := by
      simp only [Cut.add, foldl_addBlock_eq, Cut.addInsts_eq]
    have hopen (k : Nat) : k ∈ ({} : Cut).openInsts p (p.instsAfter i) ↔ k < p.insts.size ∧
        p.blockOf k = p.blockOf i ∧ (p.inst i).pos < (p.inst k).pos ∧ p.isInteresting k = true := by
      rw [Cut.mem_openInsts_after hp]
      have hnone : ({} : Cut).code.covers p k = false := by
        rw [← Bool.not_eq_true, CodeSet.covers_iff]
        rintro (h | h | h) <;> exact absurd h TreeSet.not_mem_emptyc
      simp [hnone]
    rw [List.foldl_cons]
    refine ⟨hfuncs.trans (by rw [hadd]), fun b => ?_, fun k => ?_, fun b => ?_⟩
    · rw [hblocks, hadd, IdSet.mem_foldl_insert, List.mem_filter, bne_iff_ne]
      simp only [List.mem_cons, Blocker.inst.injEq, or_and_right, exists_or,
        exists_eq_left, or_assoc]
    · rw [hinsts, hadd, IdSet.mem_foldl_insert, hopen]
      simp only [List.mem_cons, Blocker.inst.injEq, or_and_right, exists_or,
        exists_eq_left, or_assoc]
    · rw [hjoins, hadd, IdSet.mem_insert]
      simp only [List.mem_cons, Blocker.inst.injEq, or_and_right, exists_or, exists_eq_left]
      tauto

namespace Exact

variable {c : Config} {i b k l : Nat} (hm : Exact s i m)

include hm

theorem foldl_spec (hp : s.program.Finished) :
    (m.cutIn (s.program.funcOf i)).code.funcs = ∅ ∧
    (∀ b : Nat, b ∈ (m.cutIn (s.program.funcOf i)).code.blocks ↔ ∃ j, s.Awaits i j ∧
      b ∈ (s.flow (s.program.funcOf i)).dom.descendants (s.program.blockOf j) ∧
        b ≠ s.program.blockOf j) ∧
    (∀ k : Nat, k ∈ (m.cutIn (s.program.funcOf i)).code.insts ↔ ∃ j, s.Awaits i j ∧
      k < s.program.insts.size ∧ s.program.blockOf k = s.program.blockOf j ∧
        (s.program.inst j).pos < (s.program.inst k).pos ∧ s.program.isInteresting k = true) ∧
    ∀ b : Nat, b ∈ (m.cutIn (s.program.funcOf i)).joinBlocks ↔
      ∃ j, s.Awaits i j ∧ s.program.blockOf j = b := by
  have hmem (j : InstId) : Blocker.inst j ∈ m.blockersIn (s.program.funcOf i) ↔ s.Awaits i j := by
    rw [hm.mem_iff]
    constructor
    · rintro ⟨k, hk, heq⟩
      cases heq
      exact hk
    · exact fun hj => ⟨j, hj, rfl⟩
  have hbs : ∀ b ∈ m.blockersIn (s.program.funcOf i), ∃ j, b = .inst j := by
    intro b hb
    obtain ⟨j, -, rfl⟩ := hm.mem_iff.1 hb
    exact ⟨j, rfl⟩
  obtain ⟨hfuncs, hblocks, hinsts, hjoins⟩ := foldl_add hp
    (s.flow (s.program.funcOf i)).dom hbs {}
  simp only [← hm.cutIn_eq, hmem] at hfuncs hblocks hinsts hjoins
  exact ⟨hfuncs, fun b => (hblocks b).trans (or_iff_right TreeSet.not_mem_emptyc),
    fun k => (hinsts k).trans (or_iff_right TreeSet.not_mem_emptyc),
    fun b => (hjoins b).trans (or_iff_right TreeSet.not_mem_emptyc)⟩

theorem mem_joinBlocks_iff (hp : s.program.Finished) :
    b ∈ (m.cutIn (s.program.funcOf i)).joinBlocks ↔ ∃ j, s.Awaits i j ∧ s.program.blockOf j = b :=
  (hm.foldl_spec hp).2.2.2 b

theorem framed (hp : s.program.Finished) :
    (m.cutIn (s.program.funcOf i)).Framed s.program := by
  intro k hk
  obtain ⟨j, hj, -, hblock, -⟩ := ((hm.foldl_spec hp).2.2.1 k).1 hk
  exact (hm.mem_joinBlocks_iff hp).2 ⟨j, hj, hblock.symm⟩

variable (hp : s.program.Finished) (hplaced : s.program.Placed) (h : s.Prepared p c)

include hp hplaced h

theorem mem_blocks_iff : b ∈ (m.cutIn (s.program.funcOf i)).code.blocks ↔ ∃ j, s.Awaits i j ∧
    b ≠ s.program.blockOf j ∧
      (FlowGraph.forward s.program (s.program.funcOf i)).Dom (s.program.blockOf j) b := by
  rw [(hm.foldl_spec hp).2.1]
  refine exists_congr fun j => and_congr_right fun hj => ?_
  have hblocks : s.program.blockOf j ∈ (s.program.func (s.program.funcOf i)).blocks := by
    refine hp.wellFormed.mem_blocks_iff.2 ⟨hp.wellFormed.blockOf_lt hj.lt, ?_⟩
    rw [hplaced j hj.lt, hj.sameFunc]
  have hf : s.program.funcOf i < p.funcs.size := by
    rw [← h.program, ← hj.sameFunc]
    exact Program.lt_of_defined (hp.wellFormed.defined_funcOf hj.lt)
  have hdom : (s.flow (s.program.funcOf i)).dom =
      Dominance.dominators s.program (s.program.funcOf i) := by
    rw [h.flow hf, h.program]
    rfl
  rw [hdom, hp.mem_descendants_iff hblocks, and_comm]
  exact and_congr_right fun hne => or_iff_right hne

theorem coversBlock_iff : (m.cutIn (s.program.funcOf i)).code.coversBlock s.program b = true ↔
    ∃ j, s.Awaits i j ∧ b ≠ s.program.blockOf j ∧
      (FlowGraph.forward s.program (s.program.funcOf i)).Dom (s.program.blockOf j) b := by
  rw [CodeSet.coversBlock_iff, (hm.foldl_spec hp).1, or_iff_right TreeSet.not_mem_emptyc,
    hm.mem_blocks_iff hp hplaced h]

/-- The loads, stores and calls that are cut off are those that an awaited join dominates. -/
theorem covers_iff (hk : k < s.program.insts.size) (hint : s.program.isInteresting k = true)
    (hfunc : s.program.funcOf k = s.program.funcOf i) :
    (m.cutIn (s.program.funcOf i)).code.covers s.program k = true ↔ s.CutOff i k := by
  rw [CodeSet.covers_iff, (hm.foldl_spec hp).1, or_iff_right TreeSet.not_mem_emptyc,
    hm.mem_blocks_iff hp hplaced h, (hm.foldl_spec hp).2.2.1, ← exists_or]
  refine exists_congr fun j => ?_
  rw [← and_or_left]
  refine and_congr_right fun hj => ?_
  rw [Subject.dominates_iff hp h hj.lt, hfunc, hj.sameFunc]
  by_cases hblock : s.program.blockOf j = s.program.blockOf k
  · have hpos : j ≠ k ∧ (s.program.inst j).pos ≤ (s.program.inst k).pos ↔
        (s.program.inst j).pos < (s.program.inst k).pos := by
      constructor
      · rintro ⟨hne, hle⟩
        refine Nat.lt_of_le_of_ne hle fun heq => hne ?_
        exact hp.wellFormed.eq_of_pos hj.lt hk hblock heq
      · intro hlt
        exact ⟨fun heq => by simp [heq] at hlt, Nat.le_of_lt hlt⟩
    simp [hblock, hk, hint, hpos]
  · have hne : j ≠ k := fun heq => hblock (heq ▸ rfl)
    simp [hblock, Ne.symm hblock, hne]

/-- The steps that a cut leaves are those that get behind no awaited join. -/
theorem step_iff : (m.cutIn (s.program.funcOf i)).Step s.program k l ↔ s.OpenStep i k l := by
  have hleaves : s.program.blockOf k ∉ (m.cutIn (s.program.funcOf i)).joinBlocks ↔
      ∀ j, s.Awaits i j → s.program.blockOf j ≠ s.program.blockOf k := by
    rw [hm.mem_joinBlocks_iff hp]
    simp only [not_exists, not_and]
  have henters (hterm : (s.program.op k).isTerminator = true) (hfollows : s.program.Follows k l) :
      (m.cutIn (s.program.funcOf i)).code.coversBlock s.program (s.program.blockOf l) = false ↔
        ¬s.CutOff i l := by
    obtain ⟨-, -, hfirst⟩ | ⟨hnot, -⟩ := Program.follows_cases hp.wellFormed hfollows
    case inr => exact absurd hterm (Bool.eq_false_iff.1 hnot)
    rw [Subject.cutOff_firstInst_iff hp hplaced h hfirst, ← hm.coversBlock_iff hp hplaced h,
      Bool.not_eq_true]
  constructor
  · intro hstep
    exact ⟨hstep.follows, fun ht => hleaves.1 (hstep.leaves ht),
      fun ht => (henters ht hstep.follows).1 (hstep.enters ht)⟩
  · intro hstep
    exact ⟨hstep.follows, fun ht => hleaves.2 (hstep.leaves ht),
      fun ht => (henters ht hstep.follows).2 (hstep.enters ht)⟩

theorem isEmpty_iff : (m.cutIn (s.program.funcOf i)).isEmpty = true ↔ s.CutsNothing i := by
  have hfuncs : (m.cutIn (s.program.funcOf i)).code.funcs.isEmpty = true := by
    rw [(hm.foldl_spec hp).1]
    rfl
  rw [Cut.isEmpty, CodeSet.isEmpty, hfuncs, Bool.true_and, Bool.and_eq_true,
    TreeSet.isEmpty_iff_forall_not_mem, TreeSet.isEmpty_iff_forall_not_mem]
  constructor
  · rintro ⟨hblocks, hinsts⟩ j k hj hk hne hdom
    rw [Subject.dominates_iff hp h hj.lt, hj.sameFunc] at hdom
    obtain ⟨-, hdom⟩ := hdom
    split at hdom
    · next hblock =>
      refine ⟨hblock.symm, ?_⟩
      by_contra hint
      refine hinsts k
        (((hm.foldl_spec hp).2.2.1 k).2 ⟨j, hj, hk, hblock.symm, ?_, by simpa using hint⟩)
      refine Nat.lt_of_le_of_ne hdom fun heq => hne ?_
      exact hp.wellFormed.eq_of_pos hj.lt hk hblock heq
    · next hblock =>
      exact absurd ((hm.mem_blocks_iff hp hplaced h).2 ⟨j, hj, Ne.symm hblock, hdom⟩) (hblocks _)
  · refine fun hnothing => ⟨fun b hb => ?_, fun k hk => ?_⟩
    · obtain ⟨j, hj, hne, hdom⟩ := (hm.mem_blocks_iff hp hplaced h).1 hb
      obtain ⟨hlt, hfunc⟩ :=
        hp.wellFormed.mem_blocks_iff.1 (hp.mem_blocks_of_reached b hdom.reached)
      obtain ⟨t, ht, rfl, -⟩ := hp.exists_last hlt
      refine hne (hnothing j t hj ht (fun heq => hne (heq ▸ rfl)) ?_).1
      rw [Subject.dominates_iff hp h hj.lt, hj.sameFunc, if_neg (Ne.symm hne),
        ← hplaced t ht, hfunc]
      exact ⟨rfl, hdom⟩
    · obtain ⟨j, hj, hlt, hblock, hpos, hint⟩ := ((hm.foldl_spec hp).2.2.1 k).1 hk
      have hnot := (hnothing j k hj hlt (fun heq => by simp [heq] at hpos) ?_).2
      · rw [hnot] at hint
        cases hint
      · rw [Subject.dominates_iff hp h hj.lt, if_pos hblock.symm, ← hplaced k hlt,
          ← hplaced j hj.lt, hblock]
        exact ⟨rfl, Nat.le_of_lt hpos⟩

/-- Control gets into a function whatever is cut off. -/
theorem coversBlock_entry (hb : (s.program.func (s.program.funcOf i)).entry = some b) :
    (m.cutIn (s.program.funcOf i)).code.coversBlock s.program b = false := by
  rw [← Bool.not_eq_true, hm.coversBlock_iff hp hplaced h]
  rintro ⟨j, -, hne, hdom⟩
  refine hdom.not_around (FlowGraph.mem_around_of_root (Option.mem_toList.2 hb) ?_ hne)
  exact (Cut.entry_spec hp hb).1

end Exact

end JoinMatch

end DataRace
