import DataRace.Proofs.Parallel.Enter
import DataRace.Proofs.Parallel.Join
import DataRace.Proofs.Program.Script

/-!
# DataRace.Proofs.Parallel.Trunk

When code after a spawn is found to run beside the spawned threads.

A spawn takes effect where it stands, and at calls from which control returns
while its threads may still run.  In the function of the spawn there is no such
call unless the function may run again, so what the trunk holds of the function
is what open steps from the spawn lead to (`covers_trunk_iff`).

A join that waits for the thread should be the only reason to leave code out.
But joins are matched when they may wait for it, and they cut off what they
dominate, also when control has passed them before it gets to the spawn.  So
code that runs before any join is found exactly if it is also reached by open
steps (`unjoined_covers_iff`), and a thread id that is used again shows that it
need not be (`reusedThreadId`).
-/

namespace DataRace

open Std Relation

namespace Parallelism

variable {p : Program} {c : Config} {s : Subject}

/-! ## where a spawn takes effect -/

/-- The spawn stands at the site, or threads of it may run when a call there returns. -/
structure EffectSite (s : Subject) (k : ComponentId) (spawn site : InstId) : Prop where
  place : s.components.of? (s.program.funcOf site) = some k
  reason : site = spawn ∧ s.program.isSpawn spawn = true ∨
    ∃ e ∈ s.calls.edges, e.site = site ∧ s.calls.Reaches e.callee (s.program.funcOf spawn)

/-- What is known about a table of effects. -/
def EffectsHold (s : Subject) (effects : IdMap (IdMap IdSet)) : Prop :=
  ∀ (k spawn : Nat) (sites : IdSet), (effects.getD k ∅)[spawn]? = some sites →
    (∃ r, r ∈ sites) ∧ ∀ r ∈ sites, EffectSite s k spawn r

/-- A spawn is known to take effect at a site. -/
def TakesEffect (effects : IdMap (IdMap IdSet)) (k : ComponentId) (spawn site : InstId) : Prop :=
  ∃ sites, (effects.getD k ∅)[spawn]? = some sites ∧ site ∈ sites

variable {effects : IdMap (IdMap IdSet)} {k l spawn other site r : Nat}

theorem getElem?_addEffect : ((addEffect effects k spawn site).getD l ∅)[other]? =
    if k = l ∧ spawn = other then some (((effects.getD k ∅).getD spawn ∅).insert site)
    else (effects.getD l ∅)[other]? := by
  rw [addEffect, IdMap.getD_insert]
  by_cases hk : k = l
  · subst hk
    rw [if_pos rfl, IdMap.addTo, TreeMap.getElem?_insert]
    simp
  · simp [hk]

theorem EffectsHold.addEffect (h : EffectsHold s effects) (hsite : EffectSite s k spawn site) :
    EffectsHold s (addEffect effects k spawn site) := by
  intro l other sites hget
  rw [getElem?_addEffect] at hget
  split at hget
  · next heq =>
    obtain ⟨rfl, rfl⟩ := heq
    cases hget
    refine ⟨⟨site, IdSet.mem_insert.2 (.inl rfl)⟩, fun r hr => ?_⟩
    rcases IdSet.mem_insert.1 hr with rfl | hr
    · exact hsite
    · obtain ⟨sites, hsites, hr⟩ := IdMap.mem_getD_iff.1 hr
      exact (h _ _ sites hsites).2 r hr
  · exact h l other sites hget

theorem TakesEffect.addEffect (h : TakesEffect effects l other r) :
    TakesEffect (addEffect effects k spawn site) l other r := by
  obtain ⟨sites, hget, hr⟩ := h
  rw [TakesEffect, getElem?_addEffect]
  split
  · next heq =>
    obtain ⟨rfl, rfl⟩ := heq
    refine ⟨_, rfl, IdSet.mem_insert.2 (.inr ?_)⟩
    rwa [IdMap.getD_of_getElem? hget]
  · exact ⟨sites, hget, hr⟩

theorem takesEffect_addEffect :
    TakesEffect (Parallelism.addEffect effects k spawn site) k spawn site := by
  rw [TakesEffect, getElem?_addEffect, if_pos ⟨rfl, rfl⟩]
  exact ⟨_, rfl, IdSet.mem_insert.2 (.inl rfl)⟩

/-- A component where a spawn takes effect leads to the function of the spawn. -/
theorem EffectSite.reaches (h : s.Prepared p c) (hsite : EffectSite s k spawn site) {g : FuncId}
    (hg : g ∈ (s.components.get k).members) : s.calls.Reaches g (s.program.funcOf spawn) := by
  obtain ⟨hclass, hmem, -⟩ := h.class_of_of? hsite.place
  have hto := ((hclass.mem_iff hg).1 hmem).2.1
  rcases hsite.reason with ⟨rfl, -⟩ | ⟨e, he, rfl, hreach⟩
  · exact hto
  · exact (hto.tail ⟨e, he, h.program ▸ (h.edge_spec he).2.2, rfl⟩).trans hreach

theorem EffectsHold.spread (h : s.Prepared p c) (matched : IdMap JoinMatch)
    (hold : EffectsHold s effects) (k : ComponentId) :
    EffectsHold s (spread s matched effects k) := by
  refine List.foldlRecOn (motive := EffectsHold s) _ _ hold fun effects' hold' spawn hspawn => ?_
  refine List.foldlRecOn (motive := EffectsHold s) _ _ hold' fun effects'' hold'' e he => ?_
  -- The threads of the spawn run on in the component, so its members lead to the spawn.
  have hkey := (List.mem_filter.1 hspawn).1
  rw [TreeMap.mem_keys, TreeMap.mem_iff_isSome_getElem?, Option.isSome_iff_exists] at hkey
  obtain ⟨sites, hsites⟩ := hkey
  obtain ⟨⟨r, hr⟩, hall⟩ := hold _ _ sites hsites
  obtain ⟨g, hg, he⟩ := List.mem_flatMap.1 (List.mem_mergeSort.1 he)
  have hedge := List.mem_filter.1 (List.mem_filter.1 he).1
  have hcallee : e.callee = g := of_decide_eq_true hedge.2
  have hreach := (hall r hr).reaches h (hcallee ▸ hg)
  split
  · next caller hcaller =>
    refine hold''.addEffect ⟨?_, .inr ⟨e, hedge.1, rfl, hreach⟩⟩
    rw [h.program, ← (h.edge_spec hedge.1).2.2]
    exact hcaller
  · exact hold''

theorem TakesEffect.spread (matched : IdMap JoinMatch) (hl : TakesEffect effects l other r)
    (k : ComponentId) : TakesEffect (spread s matched effects k) l other r := by
  refine List.foldlRecOn (motive := fun x => TakesEffect x l other r) _ _ hl fun x hx spawn _ => ?_
  refine List.foldlRecOn (motive := fun x => TakesEffect x l other r) _ _ hx fun y hy e _ => ?_
  split
  · exact hy.addEffect
  · exact hy

theorem effectsHold_effectsOf (h : s.Prepared p c) {spawns : List InstId}
    (hspawns : ∀ i ∈ spawns, s.program.isSpawn i = true) (matched : IdMap JoinMatch) :
    EffectsHold s (effectsOf s spawns matched) := by
  refine List.foldlRecOn (motive := EffectsHold s) _ _ ?_ fun x hx k _ => hx.spread h matched k
  refine List.foldlRecOn (motive := EffectsHold s) _ _ ?_ fun x hx i hi => ?_
  · intro k i sites hget
    simp at hget
  · split
    · next k hk => exact hx.addEffect ⟨hk, .inl ⟨rfl, hspawns i hi⟩⟩
    · exact hx

/-- A spawn takes effect where it stands. -/
theorem takesEffect_effectsOf {spawns : List InstId} (matched : IdMap JoinMatch)
    (hspawn : spawn ∈ spawns) (hk : s.components.of? (s.program.funcOf spawn) = some k) :
    TakesEffect (effectsOf s spawns matched) k spawn spawn := by
  refine List.foldlRecOn (motive := fun x => TakesEffect x k spawn spawn) _ _ ?_
    fun x hx c _ => hx.spread matched c
  obtain ⟨before, after, rfl⟩ := List.append_of_mem hspawn
  rw [List.foldl_append, List.foldl_cons, hk]
  refine List.foldlRecOn (motive := fun x => TakesEffect x k spawn spawn) _ _
    takesEffect_addEffect fun x hx i _ => ?_
  split
  · exact hx.addEffect
  · exact hx

theorem mem_effectSites_iff {x : Component × IdSet} : x ∈ effectSites s effects spawn ↔
    ∃ k ∈ s.topDown, ∃ sites, (effects.getD k ∅)[spawn]? = some sites ∧
      x = (s.components.get k, sites) := by
  simp only [effectSites, List.mem_filterMap, Option.map_eq_some_iff, @eq_comm _ x]

theorem isCall_of_isSpawn (h : s.program.isSpawn spawn = true) :
    (s.program.op spawn).isCall = true :=
  Program.isCall_of_libraryCall (eq_of_beq h)

/-- A site is a call in a member of its component. -/
theorem EffectSite.site_spec (h : s.Prepared p c) (hsite : EffectSite s k spawn site) :
    site < s.program.insts.size ∧ (s.program.op site).isTerminator = false ∧
      s.program.funcOf site ∈ (s.components.get k).members := by
  have hcall : (s.program.op site).isCall = true := by
    rcases hsite.reason with ⟨rfl, hspawn⟩ | ⟨e, he, rfl, -⟩
    · exact isCall_of_isSpawn hspawn
    · rw [h.program]
      exact (h.edge_spec he).2.1
  exact ⟨Program.lt_of_isCall hcall,
    Program.isTerminator_of_isInteresting (Program.isInteresting_of_isCall hcall),
    (h.class_of_of? hsite.place).2.1⟩

/-- In a function that does not run again a spawn takes effect where it stands only. -/
theorem EffectSite.eq_spawn (h : s.Prepared p c) (hsite : EffectSite s k spawn site)
    (hfunc : s.program.funcOf site = s.program.funcOf spawn)
    (hrec : s.components.isRecursive (s.program.funcOf spawn) = false) : site = spawn := by
  rcases hsite.reason with ⟨rfl, -⟩ | ⟨e, he, rfl, hreach⟩
  · rfl
  · exfalso
    have hplace := hfunc ▸ hsite.place
    obtain ⟨hclass, hmem, -⟩ := h.class_of_of? hplace
    have hflag : (s.components.get k).recursive = false := by
      rw [Components.isRecursive, hplace] at hrec
      exact hrec
    have hcaller : e.caller = s.program.funcOf spawn := by
      rw [← hfunc, h.program]
      exact (h.edge_spec he).2.2
    have hin : e.callee ∈ (s.components.get k).members := by
      refine (hclass.mem_iff hmem).2 ⟨h.defined e he, ?_, hreach⟩
      exact .single ⟨e, he, hcaller, rfl⟩
    refine hclass.no_loop hflag he (hcaller ▸ hmem) ?_
    rw [hcaller]
    exact hclass.eq_of_mem hflag hin hmem

end Parallelism

/-! ## code that runs beside spawned threads -/

namespace Subject

/-- A join that waits for the thread of a spawn. -/
def MustAwait (s : Subject) (spawn join : InstId) : Prop :=
  s.program.isJoin join = true ∧ ∃ x y, ThreadSite.tidPointer? s.program spawn = some x ∧
    ThreadSite.tidPointer? s.program join = some y ∧ s.pointers.mustAlias x y = true

/-- Control gets from a spawn to an instruction and passes no join that waits for the thread. -/
def Unjoined (s : Subject) (spawn i : InstId) : Prop :=
  ∃ run, s.program.Runs (spawn :: (run ++ [i])) ∧ ∀ k ∈ run, ¬s.MustAwait spawn k

/-- Open steps lead from a spawn to an instruction that is not cut off. -/
def OpenAfter (s : Subject) (spawn i : InstId) : Prop :=
  TransGen (s.OpenStep spawn) spawn i ∧ ¬s.CutOff spawn i

/-- An instruction in the function of a spawn runs when the function is entered anew: any one does
when nothing is cut off, else one that open steps from the start lead to. -/
def OpenFromStart (s : Subject) (spawn i : InstId) : Prop :=
  s.CutsNothing spawn ∨ (∃ k, s.program.start? (s.program.funcOf spawn) = some k ∧
    ReflTransGen (s.OpenStep spawn) k i) ∧ ¬s.CutOff spawn i

end Subject

namespace Parallelism

/-- The reasons for which an instruction of the function of a spawn is in its trunk. -/
def Beside (s : Subject) (par : Parallelism) (spawn i : InstId) : Prop :=
  s.components.isRecursive (s.program.funcOf spawn) = true ∨ s.OpenAfter spawn i ∨
    s.Reenters (s.program.funcOf spawn) (par.codeOf spawn).trunk ∧ s.OpenFromStart spawn i

variable {p : Program} {c : Config} {s : Subject} {par : Parallelism} {spawn i : Nat}

theorem mem_spawns_iff (hp : s.program.WellFormed) (hplaced : s.program.Placed) :
    spawn ∈ (Operations.collect s).spawns ↔ s.program.isSpawn spawn = true ∧
      s.isAnalyzable (s.program.funcOf spawn) = true := by
  simp only [Operations.collect, List.mem_filter, List.mem_flatMap, hplaced.mem_funcInsts_iff hp,
    Program.funcIds, List.mem_range]
  constructor
  · rintro ⟨⟨g, ⟨-, hg⟩, -, rfl⟩, hspawn⟩
    exact ⟨hspawn, hg⟩
  · rintro ⟨hspawn, hg⟩
    have hlt := Program.lt_of_isCall (isCall_of_isSpawn hspawn)
    exact ⟨⟨_, ⟨Program.lt_of_defined (hp.defined_funcOf hlt), hg⟩, hlt, rfl⟩, hspawn⟩

/-- The trunk has the function of the spawn as a whole if the function may run again, and else the
spawn is the only site in it. -/
theorem effectSites_spec (h : s.Prepared p c) (hp : s.program.WellFormed)
    (hplaced : s.program.Placed) (hspawn : spawn ∈ (Operations.collect s).spawns)
    {effects : IdMap (IdMap IdSet)} (hold : EffectsHold s effects)
    (htakes : ∀ k, s.components.of? (s.program.funcOf spawn) = some k →
      TakesEffect effects k spawn spawn) {P : InstId → Prop} :
    ((∃ x ∈ effectSites s effects spawn, x.1.recursive = true ∧
        s.program.funcOf spawn ∈ x.1.members) ∨
      ∃ x ∈ effectSites s effects spawn, ∃ r ∈ x.2,
        s.program.funcOf r = s.program.funcOf spawn ∧ P r) ↔
    s.components.isRecursive (s.program.funcOf spawn) = true ∨ P spawn := by
  obtain rfl := h.program
  obtain ⟨-, hana⟩ := (mem_spawns_iff hp hplaced).1 hspawn
  have hdef := h.defined_of_isAnalyzable hana
  obtain ⟨k, hk⟩ := h.exists_of? hdef
  have hrec : s.components.isRecursive (s.program.funcOf spawn) =
      (s.components.get k).recursive := by
    rw [Components.isRecursive, hk]
    rfl
  obtain ⟨-, hmem, -⟩ := h.class_of_of? hk
  obtain ⟨sites, hsites, hin⟩ := htakes k hk
  have hown : (s.components.get k, sites) ∈ effectSites s effects spawn :=
    mem_effectSites_iff.2 ⟨k, h.mem_topDown hp hplaced hana hk, sites, hsites, rfl⟩
  constructor
  · rintro (⟨x, hx, hflag, hfunc⟩ | ⟨x, hx, r, hr, hfunc, hP⟩)
    · obtain ⟨l, -, sites', hsites', rfl⟩ := mem_effectSites_iff.1 hx
      -- The component has a site in it, so it is the one of the spawn.
      obtain ⟨⟨r, hr⟩, hall⟩ := hold l spawn sites' hsites'
      have hplace := (hall r hr).place
      obtain ⟨hclass, hr_mem, -⟩ := h.class_of_of? hplace
      obtain ⟨hr_def, hto, hfrom⟩ := (hclass.mem_iff hfunc).1 hr_mem
      have hsame := h.of?_congr hdef hr_def hto hfrom
      rw [hk, hplace, Option.some.injEq] at hsame
      rw [hrec, hsame]
      exact .inl hflag
    · obtain ⟨l, -, sites', hsites', rfl⟩ := mem_effectSites_iff.1 hx
      by_cases hflag : s.components.isRecursive (s.program.funcOf spawn) = true
      · exact .inl hflag
      · have heq := ((hold l spawn sites' hsites').2 r hr).eq_spawn h hfunc (by simpa using hflag)
        exact .inr (heq ▸ hP)
  · rintro (hflag | hP)
    · exact .inl ⟨_, hown, hrec ▸ hflag, hmem⟩
    · exact .inr ⟨_, hown, spawn, hin, rfl, hP⟩

/-- What the trunk of a spawn outside loops holds of its function. -/
theorem covers_trunk_iff (hp : p.Finished) (hplaced : p.Placed) (hs : Subject.prepare p c = .ok s)
    (hpar : analyze s (.collect s) = .ok par) (hspawn : spawn ∈ (Operations.collect s).spawns)
    (hloop : (s.flowOf spawn).loops.loopOfInst p spawn = none) (hint : p.isInteresting i = true)
    (hfunc : p.funcOf i = p.funcOf spawn) :
    (par.codeOf spawn).trunk.covers p i = true ↔ Beside s par spawn i := by
  have h := Subject.prepared hs
  obtain rfl := h.program
  obtain ⟨spawns, joins, t, found, hkeys, hjoins, ht, hmatch, heffects, hcode⟩ :=
    analyze_spec hpar hspawn
  have hm := JoinMatch.exact_of hjoins ht hloop hmatch
  have hold : EffectsHold s par.effects := by
    rw [heffects]
    refine effectsHold_effectsOf h (fun j hj => ?_) _
    exact ((mem_spawns_iff hp.wellFormed hplaced).1 (hkeys.1 hj)).1
  have htakes (k : ComponentId) (hk : s.components.of? (s.program.funcOf spawn) = some k) :
      TakesEffect par.effects k spawn spawn := by
    rw [heffects]
    exact takesEffect_effectsOf _ (hkeys.2 hspawn) hk
  have hi : i < s.program.insts.size := Program.lt_of_op_ne fun hop => by
    rw [Program.isInteresting, hop] at hint
    cases hint
  have hf : s.program.funcOf spawn < s.program.funcs.size := by
    rw [← hfunc]
    exact Program.lt_of_defined (hp.wellFormed.defined_funcOf hi)
  have hL : ∀ x ∈ effectSites s par.effects spawn, ∀ r ∈ x.2, r < s.program.insts.size ∧
      (s.program.op r).isTerminator = false ∧ s.program.funcOf r ∈ x.1.members := by
    intro x hx r hr
    obtain ⟨k, -, sites, hsites, rfl⟩ := mem_effectSites_iff.1 hx
    exact ((hold k spawn sites hsites).2 r hr).site_spec h
  have hstep : (((par.matched.getD spawn {}).cutIn (s.program.funcOf spawn)).Step s.program) =
      s.OpenStep spawn := by
    funext k l
    exact propext (hm.step_iff hp hplaced h)
  have hcut : ((par.matched.getD spawn {}).cutIn (s.program.funcOf spawn)).code.covers s.program i =
      false ↔ ¬s.CutOff spawn i := by
    rw [← hm.covers_iff hp hplaced h hi hint hfunc, Bool.not_eq_true]
  have hre : s.Reenters (s.program.funcOf spawn) (par.codeOf spawn).trunk ↔
      s.Reenters (s.program.funcOf spawn) (trunkOf s (par.matched.getD spawn {})
        (effectSites s par.effects spawn) none) := by
    refine exists_congr fun e => and_congr_right fun he => and_congr_right fun _ => ?_
    rw [hcode, forkCode, CodeSet.covers_reduce hplaced (h.edge_spec he).1]
  have hstart : FromStart s.program (par.matched.getD spawn {}) (s.program.funcOf spawn) i ↔
      s.OpenFromStart spawn i := by
    rw [FromStart, hstep, hcut, hm.isEmpty_iff hp hplaced h]
    rfl
  rw [Beside, hre, ← hstart, hcode, forkCode, CodeSet.covers_reduce hplaced hi,
    covers_trunkOf_iff hp hplaced h hf (hm.framed hp)
      (fun b hb => hm.coversBlock_entry hp hplaced h hb) hL hi hint hfunc, hstep, hcut]
  rw [effectSites_spec h hp.wellFormed hplaced hspawn hold htakes
    (P := fun r => TransGen (s.OpenStep spawn) r i ∧ ¬s.CutOff spawn i), or_assoc]
  rfl

/-- Code that control gets to before any join for the thread is always found exactly if it is found
for one of the reasons of the trunk. -/
theorem unjoined_covers_iff (hp : p.Finished) (hplaced : p.Placed)
    (hs : Subject.prepare p c = .ok s)
    (hpar : analyze s (.collect s) = .ok par) (hspawn : spawn ∈ (Operations.collect s).spawns)
    (hloop : (s.flowOf spawn).loops.loopOfInst p spawn = none) (hint : p.isInteresting i = true)
    (hfunc : p.funcOf i = p.funcOf spawn) :
    (s.Unjoined spawn i → (par.codeOf spawn).trunk.covers p i = true) ↔
      (s.Unjoined spawn i → Beside s par spawn i) :=
  imp_congr_right fun _ => covers_trunk_iff hp hplaced hs hpar hspawn hloop hint hfunc

end Parallelism

/-! ## joins that wait for the thread -/

namespace Subject

variable {p : Program} {c : Config} {s : Subject} {spawn i k l : Nat}

/-- From an instruction that is not cut off and no awaited join control makes an open step, and is
not cut off behind it. -/
theorem openStep_of_follows (hp : s.program.Finished) (hplaced : s.program.Placed)
    (h : s.Prepared p c) (hk : k < s.program.insts.size)
    (hfunc : s.program.funcOf k = s.program.funcOf spawn)
    (hreach : s.program.blockOf k ∈ (FlowGraph.forward s.program (s.program.funcOf spawn)).reached)
    (hclear : ¬s.CutOff spawn k) (hnot : ¬s.Awaits spawn k) (hstep : s.program.Follows k l) :
    s.OpenStep spawn k l ∧ ¬s.CutOff spawn l ∧ s.program.funcOf l = s.program.funcOf spawn ∧
      s.program.blockOf l ∈ (FlowGraph.forward s.program (s.program.funcOf spawn)).reached := by
  have hl := Program.lt_of_follows hp.wellFormed hstep
  -- An awaited join that dominates `k` would cut it off.
  have hback (j : Nat) (hj : s.Awaits spawn j) : ¬(if s.program.blockOf j = s.program.blockOf k then
      (s.program.inst j).pos ≤ (s.program.inst k).pos
      else (FlowGraph.forward s.program (s.program.funcOf spawn)).Dom (s.program.blockOf j)
        (s.program.blockOf k)) := by
    intro hdom
    refine hclear ⟨j, hj, fun heq => hnot (heq ▸ hj), ?_⟩
    rw [dominates_iff hp h hj.lt, hj.sameFunc, hfunc]
    exact ⟨rfl, hdom⟩
  obtain ⟨hterm, hb, hfirst⟩ | ⟨hterm, hnext⟩ := Program.follows_cases hp.wellFormed hstep
  · obtain ⟨-, hlt, hbf⟩ := hp.succ_spec hb
    have hleaves (j : Nat) (hj : s.Awaits spawn j) : s.program.blockOf j ≠ s.program.blockOf k := by
      intro hblock
      refine hback j hj ?_
      rw [if_pos hblock]
      exact hp.pos_le_of_isTerminator hk hterm hj.lt hblock
    have henters : ¬s.CutOff spawn l := by
      rw [cutOff_firstInst_iff hp hplaced h hfirst]
      rintro ⟨j, hj, hne, hdom⟩
      refine hback j hj ?_
      rw [if_neg (hleaves j hj)]
      exact hdom.of_next hne hreach hb hlt
    refine ⟨⟨hstep, fun _ => hleaves, fun _ => henters⟩, henters, ?_, ?_⟩
    · rw [← hplaced l hl, hbf, hplaced k hk, hfunc]
    · exact FlowGraph.mem_reached_of_next hreach hb hlt
  · obtain ⟨-, hblock, hpos⟩ := Program.nextInst_spec hp.wellFormed hnext
    have hinner : ¬(s.program.op k).isTerminator = true := Bool.eq_false_iff.1 hterm
    refine ⟨⟨hstep, fun ht => absurd ht hinner, fun ht => absurd ht hinner⟩, ?_, ?_, ?_⟩
    · rintro ⟨j, hj, hne, hdom⟩
      refine hback j hj ?_
      rw [dominates_iff hp h hj.lt, hblock, hj.sameFunc] at hdom
      split at hdom
      · next hjb =>
        rw [if_pos hjb]
        have hother : (s.program.inst j).pos ≠ (s.program.inst l).pos := fun heq =>
          hne (hp.wellFormed.eq_of_pos hj.lt hl (hjb.trans hblock.symm) heq)
        have hle := hdom.2
        omega
      · next hjb =>
        rw [if_neg hjb]
        exact hdom.2
    · rw [← hplaced l hl, hblock, hplaced k hk, hfunc]
    · rwa [hblock]

/-- A run that starts with code not cut off and passes no awaited join is one of open steps, and
ends with code not cut off. -/
theorem openPath_of_runs (hp : s.program.Finished) (hplaced : s.program.Placed)
    (h : s.Prepared p c) {run : List InstId} (hruns : s.program.Runs (k :: (run ++ [i])))
    (hfree : ∀ j ∈ run, ¬s.Awaits spawn j) (hk : k < s.program.insts.size)
    (hfunc : s.program.funcOf k = s.program.funcOf spawn)
    (hreach : s.program.blockOf k ∈ (FlowGraph.forward s.program (s.program.funcOf spawn)).reached)
    (hclear : ¬s.CutOff spawn k) (hnot : ¬s.Awaits spawn k) :
    TransGen (s.OpenStep spawn) k i ∧ ¬s.CutOff spawn i := by
  induction run generalizing k with
  | nil =>
    obtain ⟨hstep, -⟩ := List.isChain_cons_cons.1 hruns
    obtain ⟨hopen, hclear', -⟩ := openStep_of_follows hp hplaced h hk hfunc hreach hclear hnot hstep
    exact ⟨.single hopen, hclear'⟩
  | cons l run ih =>
    obtain ⟨hstep, hrest⟩ := List.isChain_cons_cons.1 hruns
    obtain ⟨hopen, hclear', hfunc', hreach'⟩ :=
      openStep_of_follows hp hplaced h hk hfunc hreach hclear hnot hstep
    have hend := ih hrest (fun j hj => hfree j (List.mem_cons_of_mem l hj))
      (Program.lt_of_follows hp.wellFormed hstep) hfunc' hreach' hclear'
      (hfree l List.mem_cons_self)
    exact ⟨.head hopen hend.1, hend.2⟩

/-- If the awaited joins wait for the thread, and control gets to the spawn around them, then open
steps lead wherever control gets before such a join. -/
theorem openAfter_of_unjoined (hp : s.program.Finished) (hplaced : s.program.Placed)
    (h : s.Prepared p c) (hspawn : s.program.isSpawn spawn = true)
    (hreach : s.program.blockOf spawn ∈
      (FlowGraph.forward s.program (s.program.funcOf spawn)).reached)
    (hmust : ∀ j, s.Awaits spawn j → s.MustAwait spawn j) (hclear : ¬s.CutOff spawn spawn)
    (hun : s.Unjoined spawn i) : s.OpenAfter spawn i := by
  obtain ⟨run, hruns, hfree⟩ := hun
  have hlt : spawn < s.program.insts.size :=
    Program.lt_of_isCall (Parallelism.isCall_of_isSpawn hspawn)
  refine openPath_of_runs hp hplaced h hruns (fun j hj ha => hfree j hj (hmust j ha)) hlt rfl hreach
    hclear fun ha => ?_
  have hjoin := (List.mem_filter.1 ha.live).2
  rw [Program.isSpawn, beq_iff_eq] at hspawn
  rw [Program.isJoin, hspawn] at hjoin
  cases hjoin

end Subject

namespace Parallelism

variable {p : Program} {c : Config} {s : Subject} {par : Parallelism} {spawn i : Nat}

/-- Nothing that runs before a join is lost if the awaited joins wait for the thread and control
gets to the spawn around them. -/
theorem covers_of_unjoined (hp : p.Finished) (hplaced : p.Placed) (hs : Subject.prepare p c = .ok s)
    (hpar : analyze s (.collect s) = .ok par) (hspawn : spawn ∈ (Operations.collect s).spawns)
    (hloop : (s.flowOf spawn).loops.loopOfInst p spawn = none) (hint : p.isInteresting i = true)
    (hfunc : p.funcOf i = p.funcOf spawn)
    (hreach : p.blockOf spawn ∈ (FlowGraph.forward p (p.funcOf spawn)).reached)
    (hmust : ∀ j, s.Awaits spawn j → s.MustAwait spawn j) (hclear : ¬s.CutOff spawn spawn)
    (hun : s.Unjoined spawn i) : (par.codeOf spawn).trunk.covers p i = true := by
  have h := Subject.prepared hs
  obtain rfl := h.program
  have hsite := ((mem_spawns_iff hp.wellFormed hplaced).1 hspawn).1
  rw [covers_trunk_iff hp hplaced hs hpar hspawn hloop hint hfunc]
  exact .inr (.inl (Subject.openAfter_of_unjoined hp hplaced h hsite hreach hmust hclear hun))

/-! ## a thread id that is used again -/

/-- A thread is started and joined, then another one is started under the same thread id, and a
global is written that the threads write, too. -/
def reusedThreadId : List Command :=
  [.global "t" 0, .global "g" 0, .declare "main" 0, .declare "worker" 1, .declare "thread_create" 3,
    .declare "thread_join" 2, .const 0,
    .body 1, .append 1 0 (.store 1 12), .append 1 0 (.ret none),
    .body 0, .append 0 1 (.call (.direct 2) [0, 3, 12]), .append 0 1 (.load 0),
    .append 0 1 (.call (.direct 3) [14, 12]), .append 0 1 (.call (.direct 2) [0, 3, 12]),
    .append 0 1 (.store 1 12), .append 0 1 (.ret none)]

/-- The write follows the second start, and yet the join before it is a reason to leave it out. -/
theorem reusedThreadId_spec : ∃ s par, (Builder.ofScript reusedThreadId).Finished ∧
    (Builder.ofScript reusedThreadId).Placed ∧
    Subject.prepare (Builder.ofScript reusedThreadId) {} = .ok s ∧
    analyze s (.collect s) = .ok par ∧ 5 ∈ (Operations.collect s).spawns ∧
    (s.flowOf 5).loops.loopOfInst (Builder.ofScript reusedThreadId) 5 = none ∧
    s.Unjoined 5 6 ∧ ¬Beside s par 5 6 := by
  have hfin : (Builder.ofScript reusedThreadId).Finished :=
    Builder.finished_ofScript (by decide +kernel)
  have hplaced : (Builder.ofScript reusedThreadId).Placed := by decide +kernel
  have hrun : (Subject.prepare (Builder.ofScript reusedThreadId) {}).toOption.map (fun s =>
      (analyze s (.collect s)).toOption.isSome &&
      (Operations.collect s).spawns.contains 5 && (Operations.collect s).joins.contains 4 &&
      ((s.flowOf 5).loops.loopOfInst (Builder.ofScript reusedThreadId) 5).isNone &&
      s.pointers.mayAlias 0 0 && (ThreadSite.of s 4).toOption.any (·.loop.isNone) &&
      s.dominates 4 6 && s.calls.edges.all (·.callee != 0) && !s.components.isRecursive 0) =
      some true := by
    decide +kernel
  cases hs : Subject.prepare (Builder.ofScript reusedThreadId) {} with
  | error e => simp [hs, Except.toOption] at hrun
  | ok s =>
    have hprog := (Subject.prepared hs).program
    simp only [hs, Except.toOption, Option.map_some, Option.some.injEq, Bool.and_eq_true,
      List.contains_iff_mem, Bool.not_eq_true', Option.isNone_iff_eq_none] at hrun
    obtain ⟨⟨⟨⟨⟨⟨⟨⟨hok, hspawn⟩, hjoin⟩, hloop⟩, halias⟩, hsite⟩, hdom⟩, hedges⟩, hrec⟩ := hrun
    cases hpar : analyze s (.collect s) with
    | error e => simp [hpar] at hok
    | ok par =>
      have hstraight : ∃ t, ThreadSite.of s 4 = .ok t ∧ t.loop = none := by
        cases ht : ThreadSite.of s 4 with
        | error e => simp [ht] at hsite
        | ok t => exact ⟨t, rfl, by simpa [ht] using hsite⟩
      have hcut : s.CutOff 5 6 := by
        refine ⟨4, ⟨hjoin, ?_, ⟨0, 0, ?_, ?_, halias⟩, hstraight⟩, by decide, hdom⟩ <;>
          rw [hprog] <;> decide +kernel
      refine ⟨s, par, hfin, hplaced, rfl, hpar, hspawn, hloop, ⟨[], ?_, by simp⟩, ?_⟩
      · rw [hprog]
        decide +kernel
      · have hmain : s.program.funcOf 5 = 0 := by
          rw [hprog]
          decide +kernel
        rw [Beside, hmain, hrec]
        rintro (hrec | hopen | ⟨⟨e, he, hcallee, -⟩, -⟩)
        · cases hrec
        · exact hopen.2 hcut
        · have := List.all_eq_true.1 hedges e he
          rw [hcallee] at this
          cases this

/-- Code that runs before any join for the thread is not always found. -/
theorem not_forall_unjoined_covers : ¬∀ (p : Program) (c : Config) (s : Subject)
    (par : Parallelism), p.Finished → Subject.prepare p c = .ok s →
    analyze s (.collect s) = .ok par → ∀ spawn ∈ (Operations.collect s).spawns,
    (s.flowOf spawn).loops.loopOfInst p spawn = none → ∀ i, p.isInteresting i = true →
    p.funcOf i = p.funcOf spawn → s.Unjoined spawn i →
      (par.codeOf spawn).trunk.covers p i = true := by
  intro hall
  obtain ⟨s, par, hfin, hplaced, hs, hpar, hspawn, hloop, hun, hnot⟩ := reusedThreadId_spec
  have hint : (Builder.ofScript reusedThreadId).isInteresting 6 = true := by decide +kernel
  have hfunc : (Builder.ofScript reusedThreadId).funcOf 6 =
      (Builder.ofScript reusedThreadId).funcOf 5 := by decide +kernel
  refine hnot ((covers_trunk_iff hfin hplaced hs hpar hspawn hloop hint hfunc).1 ?_)
  exact hall _ _ s par hfin hs hpar 5 hspawn hloop 6 hint hfunc hun

/-- After the second start the write runs before any join, and is not found. -/
theorem not_covers_reusedThreadId : ∃ s par,
    Subject.prepare (Builder.ofScript reusedThreadId) {} = .ok s ∧
    analyze s (.collect s) = .ok par ∧ 5 ∈ (Operations.collect s).spawns ∧ s.Unjoined 5 6 ∧
    (par.codeOf 5).trunk.covers (Builder.ofScript reusedThreadId) 6 ≠ true := by
  obtain ⟨s, par, hfin, hplaced, hs, hpar, hspawn, hloop, hun, hnot⟩ := reusedThreadId_spec
  have hexact := unjoined_covers_iff hfin hplaced hs hpar hspawn hloop
    (by decide +kernel : (Builder.ofScript reusedThreadId).isInteresting 6 = true)
    (by decide +kernel)
  exact ⟨s, par, hs, hpar, hspawn, hun, fun hcov => hnot (hexact.1 (fun _ => hcov) hun)⟩

end Parallelism

end DataRace
