import DataRace.Proofs.Call.Component
import DataRace.Proofs.Parallel.Trunk

/-!
# DataRace.Proofs.Parallel.Closure

The code beside the threads of a spawn that is never joined.

A spawn takes effect in its function, and then at every call from which the
function returns, at every call from which the caller returns, and so on.  The
effects are carried from component to component in one pass, callees first; a
call leads to a component that is passed before its own or is its own, so one
pass carries them all the way (`takesEffect_of_returnSite`).

When no join is matched to the spawn nothing is cut off, and what the trunk
holds after all those sites is closed under steps of control and under calls.

* `takesEffect_spread` — one component carries a spawn to its callers;
* `takesEffect_of_returnSite` — the whole pass;
* `unjoined_closed` — the trunk and the branch of a spawn that is never joined.
-/

namespace DataRace

open Std Relation

/-! ## steps of control stay in a function -/

namespace Program

variable {p : Program} {i j : Nat}

theorem funcOf_of_follows (hp : p.Finished) (hplaced : p.Placed) (hi : i < p.insts.size)
    (h : p.Follows i j) : p.funcOf j = p.funcOf i := by
  have hj := lt_of_follows hp.wellFormed h
  obtain ⟨-, hb, -⟩ | ⟨-, hnext⟩ := follows_cases hp.wellFormed h
  · rw [← hplaced j hj, (hp.succ_spec hb).2.2, hplaced i hi]
  · rw [← hplaced j hj, (nextInst_spec hp.wellFormed hnext).2.1, hplaced i hi]

theorem lt_and_funcOf_of_transGen (hp : p.Finished) (hplaced : p.Placed) (hi : i < p.insts.size)
    (h : TransGen p.Follows i j) : j < p.insts.size ∧ p.funcOf j = p.funcOf i := by
  induction h with
  | single h => exact ⟨lt_of_follows hp.wellFormed h, funcOf_of_follows hp hplaced hi h⟩
  | tail _ h ih =>
    exact ⟨lt_of_follows hp.wellFormed h, (funcOf_of_follows hp hplaced ih.1 h).trans ih.2⟩

end Program

/-! ## where control returns to -/

/-- A call in live code from which control returns when a function returns: a call of the function,
or a call of a function with such a call in it. -/
inductive Subject.ReturnSite (s : Subject) (f : FuncId) : InstId → Prop
  | call {site : InstId} (h : site ∈ s.callSites f) : ReturnSite s f site
  | outer {inner site : InstId} (hinner : ReturnSite s f inner)
      (h : site ∈ s.callSites (s.program.funcOf inner)) : ReturnSite s f site

namespace Parallelism

variable {p : Program} {c : Config} {s : Subject} {effects : IdMap (IdMap IdSet)}
  {matched : IdMap JoinMatch} {k l spawn site r : Nat}

/-! ## one component -/

/-- Note that a spawn takes effect at a site, in the component of a function. -/
def noteIn (s : Subject) (f : FuncId) (spawn site : InstId) (effects : IdMap (IdMap IdSet)) :
    IdMap (IdMap IdSet) :=
  match s.components.of? f with
  | some c => addEffect effects c spawn site
  | none => effects

theorem TakesEffect.noteIn (h : TakesEffect effects l spawn site) (f other site' : Nat) :
    TakesEffect (noteIn s f other site' effects) l spawn site := by
  unfold Parallelism.noteIn
  split
  · exact h.addEffect
  · exact h

theorem takesEffect_foldl_noteIn {α : Type} (f other at' : α → Nat) (xs : List α)
    (h : TakesEffect effects l spawn site) :
    TakesEffect (xs.foldl (fun effects x => noteIn s (f x) (other x) (at' x) effects) effects) l
      spawn site :=
  List.foldlRecOn (motive := fun x => TakesEffect x l spawn site) _ _ h
    fun _ hx _ _ => hx.noteIn _ _ _

/-- A component in which a spawn takes effect carries it to the calls of its members, if the threads
outlive the component. -/
theorem takesEffect_spread (h : TakesEffect effects k spawn r)
    (hout : outlives s (matched.getD spawn {}) spawn (s.components.get k).rep = true) {e : CallEdge}
    (he : e ∈ s.incomingCalls (s.components.get k)) (hl : s.components.of? e.caller = some l) :
    TakesEffect (spread s matched effects k) l spawn e.site := by
  have hspawn : spawn ∈ (effects.getD k ∅).keys.filter fun spawn =>
      outlives s (matched.getD spawn {}) spawn (s.components.get k).rep := by
    obtain ⟨sites, hsites, -⟩ := h
    rw [List.mem_filter, TreeMap.mem_keys, TreeMap.mem_iff_isSome_getElem?, hsites]
    exact ⟨rfl, hout⟩
  have hadd (es : List CallEdge) (other : Nat) (x : IdMap (IdMap IdSet))
      (hx : TakesEffect x l spawn e.site) : TakesEffect
        (es.foldl (fun effects e => noteIn s e.caller other e.site effects) x) l spawn e.site :=
    takesEffect_foldl_noteIn (·.caller) (fun _ => other) (·.site) es hx
  unfold spread
  obtain ⟨before, after, hsplit⟩ := List.append_of_mem hspawn
  simp only [hsplit, List.foldl_append, List.foldl_cons]
  refine List.foldlRecOn (motive := fun x => TakesEffect x l spawn e.site) _ _ ?_
    fun x hx other _ => hadd _ other x hx
  obtain ⟨before, after, hsplit⟩ := List.append_of_mem he
  simp only [hsplit, List.foldl_append, List.foldl_cons, hl]
  exact hadd _ spawn _ takesEffect_addEffect

/-! ## the whole pass -/

/-- The effects after the components below a number were passed. -/
def effectsBelow (s : Subject) (matched : IdMap JoinMatch) (own : IdMap (IdMap IdSet)) (n : Nat) :
    IdMap (IdMap IdSet) :=
  (s.liveComponents (List.range n)).foldl (spread s matched) own

theorem effectsBelow_succ {own : IdMap (IdMap IdSet)}
    (hlive : s.isAnalyzable (s.components.get k).rep = true) :
    effectsBelow s matched own (k + 1) = spread s matched (effectsBelow s matched own k) k := by
  simp only [effectsBelow, Subject.liveComponents, List.range_succ, List.filter_append,
    List.foldl_append, List.filter_cons, hlive, if_true, List.filter_nil, List.foldl_cons,
    List.foldl_nil]

theorem TakesEffect.effectsBelow_mono {own : IdMap (IdMap IdSet)} {n m : Nat} (hnm : n ≤ m)
    (h : TakesEffect (effectsBelow s matched own n) l spawn site) :
    TakesEffect (effectsBelow s matched own m) l spawn site := by
  induction hnm with
  | refl => exact h
  | step _ ih =>
    simp only [effectsBelow, Subject.liveComponents, List.range_succ, List.filter_append,
      List.foldl_append] at ih ⊢
    exact List.foldlRecOn (motive := fun x => TakesEffect x l spawn site) _ _ ih
      fun x hx k _ => hx.spread matched k

section

variable (h : s.Prepared p c) (hp : s.program.Finished) (hplaced : s.program.Placed)

include h hp hplaced

/-- The component of live code is passed. -/
theorem exists_component {f : FuncId} (hf : s.isAnalyzable f = true) :
    ∃ k, s.components.of? f = some k ∧ k ∈ s.topDown ∧ k < s.components.list.size ∧
      s.isAnalyzable (s.components.get k).rep = true := by
  obtain rfl := h.program
  obtain ⟨k, hk⟩ := h.exists_of? (h.defined_of_isAnalyzable hf)
  have hmem := h.mem_topDown hp.wellFormed hplaced hf hk
  exact ⟨k, hk, hmem, (h.class_of_of? hk).2.2, (List.mem_filter.1 hmem).2⟩

omit hplaced in
theorem isAnalyzable_of_mem_callSites {f : FuncId} (hsite : site ∈ s.callSites f) :
    site < s.program.insts.size ∧ s.isAnalyzable (s.program.funcOf site) = true := by
  obtain rfl := h.program
  obtain ⟨e, he, -, -, rfl, hlive⟩ := Subject.mem_callSites_iff.1 hsite
  have hlt := (h.edge_spec he).1
  rw [Subject.isAnalyzable, hp.wellFormed.defined_funcOf hlt, hlive]
  exact ⟨hlt, rfl⟩

omit hplaced in
theorem isAnalyzable_of_returnSite {f : FuncId} (hsite : s.ReturnSite f site) :
    s.isAnalyzable (s.program.funcOf site) = true := by
  cases hsite with
  | call hcall => exact (isAnalyzable_of_mem_callSites h hp hcall).2
  | outer _ hcall => exact (isAnalyzable_of_mem_callSites h hp hcall).2

/-- One step of the pass: a spawn that takes effect in the component of a function is carried to a
call of the function. -/
theorem carried_of_mem_callSites {own : IdMap (IdMap IdSet)} {f : FuncId}
    (hf : s.isAnalyzable f = true) (hk : s.components.of? f = some k)
    (hout : outlives s (matched.getD spawn {}) spawn (s.components.get k).rep = true)
    (htakes : TakesEffect (effectsBelow s matched own k) k spawn r) (hsite : site ∈ s.callSites f) :
    ∃ l, s.components.of? (s.program.funcOf site) = some l ∧
      (∃ r, TakesEffect (effectsBelow s matched own l) l spawn r) ∧
      TakesEffect (effectsBelow s matched own s.components.list.size) l spawn site := by
  obtain ⟨hlt, hana⟩ := isAnalyzable_of_mem_callSites h hp hsite
  obtain ⟨l, hl, -, -, -⟩ := exists_component h hp hplaced hana
  obtain ⟨e, he, hcallee, hfork, rfl, hlive⟩ := Subject.mem_callSites_iff.1 hsite
  have hcaller : e.caller = s.program.funcOf e.site := h.program ▸ (h.edge_spec he).2.2
  have hle : k ≤ l := h.of?_le (.single ⟨e, he, hcaller, hcallee⟩) hl hk
  have hincoming : e ∈ s.incomingCalls (s.components.get k) := by
    rw [Subject.incomingCalls, List.mem_mergeSort, List.mem_flatMap]
    refine ⟨f, (h.class_of_of? hk).2.1, List.mem_filter.2 ⟨?_, ?_⟩⟩
    · exact List.mem_filter.2 ⟨he, decide_eq_true hcallee⟩
    · rw [hfork, hcaller, hlive]
      rfl
  obtain ⟨k', hk', -, hsize, hrep⟩ := exists_component h hp hplaced hf
  obtain rfl : k = k' := Option.some.inj (hk.symm.trans hk')
  have hnow : TakesEffect (effectsBelow s matched own (k + 1)) l spawn e.site := by
    rw [effectsBelow_succ hrep]
    exact takesEffect_spread htakes hout hincoming (hcaller ▸ hl)
  refine ⟨l, hl, ?_, hnow.effectsBelow_mono hsize⟩
  rcases Nat.eq_or_lt_of_le hle with rfl | hlt
  · exact ⟨r, htakes⟩
  · exact ⟨e.site, hnow.effectsBelow_mono hlt⟩

/-- A spawn whose threads outlive every component takes effect wherever control returns to. -/
theorem takesEffect_of_returnSite {spawns : List InstId} (hspawn : spawn ∈ spawns)
    (hana : s.isAnalyzable (s.program.funcOf spawn) = true)
    (hout : ∀ f, outlives s (matched.getD spawn {}) spawn f = true)
    (hsite : s.ReturnSite (s.program.funcOf spawn) site) :
    ∃ l, s.components.of? (s.program.funcOf site) = some l ∧
      TakesEffect (effectsOf s spawns matched) l spawn site := by
  let own : IdMap (IdMap IdSet) := spawns.foldl (fun effects spawn =>
    noteIn s (s.program.funcOf spawn) spawn spawn effects) ∅
  have hall : effectsOf s spawns matched = effectsBelow s matched own s.components.list.size := rfl
  suffices hcarried : ∃ l, s.components.of? (s.program.funcOf site) = some l ∧
      (∃ r, TakesEffect (effectsBelow s matched own l) l spawn r) ∧
      TakesEffect (effectsBelow s matched own s.components.list.size) l spawn site by
    obtain ⟨l, hl, -, htakes⟩ := hcarried
    exact ⟨l, hl, hall ▸ htakes⟩
  induction hsite with
  | call hsite =>
    obtain ⟨k, hk, -⟩ := exists_component h hp hplaced hana
    -- The spawn is noted where it stands before any component is passed.
    have htakes : TakesEffect own k spawn spawn := by
      obtain ⟨before, after, rfl⟩ := List.append_of_mem hspawn
      simp only [own, List.foldl_append, List.foldl_cons]
      refine takesEffect_foldl_noteIn s.program.funcOf id id after ?_
      rw [noteIn, hk]
      exact takesEffect_addEffect
    exact carried_of_mem_callSites h hp hplaced hana hk (hout _)
      (TakesEffect.effectsBelow_mono (Nat.zero_le k) htakes) hsite
  | @outer inner site hinner hsite ih =>
    obtain ⟨l, hl, ⟨r, htakes⟩, -⟩ := ih
    exact carried_of_mem_callSites h hp hplaced (isAnalyzable_of_returnSite h hp hinner) hl (hout _)
      htakes hsite

end

/-! ## without joins -/

/-- Without a join nothing is cut off. -/
theorem cutIn_of_noJoins {t : ThreadSite} {joins : List ThreadSite} {found : List InstId}
    {m : JoinMatch} (hm : JoinMatch.of s t joins = .ok (found, m))
    (hnone : m.blockers.isEmpty = true) (f : FuncId) : m.cutIn f = {} := by
  obtain ⟨bs, -, hm⟩ := exists_of_bind_eq_ok hm
  obtain ⟨-, rfl⟩ := Prod.mk.injEq _ _ _ _ ▸ Except.ok.inj hm
  exact TreeMap.getD_of_isEmpty (TreeMap.isEmpty_map.trans hnone)

/-- Without a join the threads outlive every function, if their own one returns. -/
theorem outlives_of_noJoins (h : s.Prepared p c) {m : JoinMatch} (hnone : m.blockers.isEmpty = true)
    (hlt : s.program.funcOf spawn < s.program.funcs.size)
    (hret : (s.program.returnOf (s.program.funcOf spawn)).isSome) (f : FuncId) :
    outlives s m spawn f = true := by
  have hblockers : m.blockersIn f = [] := TreeMap.getD_of_isEmpty hnone
  by_cases hf : s.program.funcOf spawn = f
  · subst hf
    obtain rfl := h.program
    obtain ⟨ret, hret⟩ := Option.isSome_iff_exists.1 hret
    have hflow : (s.flow (s.program.funcOf spawn)).ret = some ret := by
      rw [h.flow hlt]
      exact hret
    simp only [outlives, hflow, hblockers, List.any_nil, Bool.not_false, Bool.or_true]
  · simp only [outlives, bne_iff_ne.2 hf, Bool.true_or]

theorem coversBlock_noCut {b : Nat} : ({} : Cut).code.coversBlock p b = false :=
  CodeSet.coversBlock_empty

theorem covers_noCut {i : Nat} : ({} : Cut).code.covers p i = false := CodeSet.covers_empty

theorem step_noCut {i j : Nat} (h : p.Follows i j) : ({} : Cut).Step p i j :=
  ⟨h, fun _ => TreeSet.not_mem_emptyc, fun _ => coversBlock_noCut⟩

theorem framed_noCut : ({} : Cut).Framed p := fun _ hk => absurd hk TreeSet.not_mem_emptyc

section Unjoined

variable {par : Parallelism} (hp : p.Finished) (hplaced : p.Placed)
  (hs : Subject.prepare p c = .ok s) (hpar : analyze s (.collect s) = .ok par)
  (hspawn : spawn ∈ (Operations.collect s).spawns)
  (hnone : (par.matched.getD spawn {}).blockers.isEmpty = true)

include hp hplaced hs hpar hspawn

theorem effectsHold_analyze : EffectsHold s par.effects := by
  have h := Subject.prepared hs
  obtain rfl := h.program
  obtain ⟨spawns, joins, t, found, hkeys, -, -, -, heffects, -⟩ := analyze_spec hpar hspawn
  rw [heffects]
  refine effectsHold_effectsOf h (fun j hj => ?_) _
  exact ((mem_spawns_iff hp.wellFormed hplaced).1 (hkeys.1 hj)).1

/-- The sites of a spawn are calls in their components. -/
theorem effectSites_site : ∀ x ∈ effectSites s par.effects spawn, ∀ r ∈ x.2,
    r < p.insts.size ∧ (p.op r).isTerminator = false ∧ p.funcOf r ∈ x.1.members := by
  have h := Subject.prepared hs
  obtain rfl := h.program
  intro x hx r hr
  obtain ⟨k, -, sites, hsites, rfl⟩ := mem_effectSites_iff.1 hx
  exact ((effectsHold_analyze hp hplaced hs hpar hspawn k spawn sites hsites).2 r hr).site_spec h

include hnone

omit hp hplaced hs in
theorem cutIn_analyze (f : FuncId) : (par.matched.getD spawn {}).cutIn f = {} := by
  obtain ⟨spawns, joins, t, found, -, -, -, hmatch, -⟩ := analyze_spec hpar hspawn
  exact cutIn_of_noJoins hmatch hnone f

/-- What control gets to after a place where the spawn takes effect is in the trunk. -/
theorem covers_of_takesEffect {i : Nat} (hl : s.components.of? (p.funcOf site) = some l)
    (htop : l ∈ s.topDown) (htakes : TakesEffect par.effects l spawn site)
    (hpath : TransGen p.Follows site i) (hint : p.isInteresting i = true) :
    (par.codeOf spawn).trunk.covers p i = true := by
  have h := Subject.prepared hs
  obtain rfl := h.program
  have hL := effectSites_site hp hplaced hs hpar hspawn
  have hcut := cutIn_analyze hpar hspawn hnone
  obtain ⟨sites, hsites, hmem⟩ := htakes
  have hx : (s.components.get l, sites) ∈ effectSites s par.effects spawn :=
    mem_effectSites_iff.2 ⟨l, htop, sites, hsites, rfl⟩
  obtain ⟨hi, hfunc⟩ := Program.lt_and_funcOf_of_transGen hp hplaced (hL _ hx site hmem).1 hpath
  have hf : s.program.funcOf site < s.program.funcs.size := by
    rw [← hfunc]
    exact Program.lt_of_defined (hp.wellFormed.defined_funcOf hi)
  obtain ⟨spawns, joins, t, found, -, -, -, -, -, hcode⟩ := analyze_spec hpar hspawn
  rw [hcode, forkCode, CodeSet.covers_reduce hplaced hi]
  rw [covers_trunkOf_iff hp hplaced h hf (hcut _ ▸ framed_noCut)
    (fun _ _ => hcut _ ▸ coversBlock_noCut) hL hi hint hfunc, hcut]
  refine .inl (.inr ⟨_, hx, site, hmem, rfl, ?_, covers_noCut⟩)
  exact TransGen.mono (p := ({} : Cut).Step s.program) (fun _ _ => step_noCut) _ _ hpath

/-- A function that the trunk calls or starts is in it as a whole. -/
theorem covers_callee {e : CallEdge} (he : e ∈ s.calls.edges)
    (hcov : (par.codeOf spawn).trunk.covers p e.site = true) {i : Nat} (hi : i < p.insts.size)
    (hfunc : p.funcOf i = e.callee) : (par.codeOf spawn).trunk.covers p i = true := by
  have h := Subject.prepared hs
  obtain rfl := h.program
  have hL := effectSites_site hp hplaced hs hpar hspawn
  have hcut := cutIn_analyze hpar hspawn hnone
  obtain ⟨spawns, joins, t, found, -, -, -, -, -, hcode⟩ := analyze_spec hpar hspawn
  rw [hcode, forkCode, CodeSet.covers_reduce hplaced (h.edge_spec he).1] at hcov
  rw [hcode, forkCode, CodeSet.covers_reduce hplaced hi]
  obtain ⟨htrunk, -⟩ := trunkOf_spec hp hplaced h (f := e.callee) (A := fun _ => True)
    (m := par.matched.getD spawn {}) (Program.lt_of_defined (h.defined e he))
    (hcut _ ▸ framed_noCut)
    fun x hx => ⟨hL x hx, fun _ _ _ => trivial, fun _ _ _ _ _ _ => trivial⟩
  have hwhole := (htrunk.entered ⟨e, he, rfl, hcov⟩).whole (by rw [hcut]; decide)
  exact CodeSet.covers_iff.2 (.inl (hfunc ▸ hwhole))

omit hnone in
/-- The spawn takes effect where it stands. -/
theorem takesEffect_spawn : ∃ k, s.components.of? (p.funcOf spawn) = some k ∧ k ∈ s.topDown ∧
    TakesEffect par.effects k spawn spawn := by
  have h := Subject.prepared hs
  obtain rfl := h.program
  obtain ⟨spawns, joins, t, found, hkeys, -, -, -, heffects, -⟩ := analyze_spec hpar hspawn
  obtain ⟨k, hk, htop, -⟩ := exists_component h hp hplaced
    ((mem_spawns_iff hp.wellFormed hplaced).1 hspawn).2
  exact ⟨k, hk, htop, heffects ▸ takesEffect_effectsOf _ (hkeys.2 hspawn) hk⟩

omit hnone in
/-- The branch holds the functions that the spawned threads enter. -/
theorem covers_branch_iff {i : Nat} : (par.codeOf spawn).branch.covers p i = true ↔
    ∃ e ∈ s.calls.edges, e.site = spawn ∧ s.calls.Reaches e.callee (p.funcOf i) := by
  obtain ⟨k, -, htop, sites, hsites, -⟩ := takesEffect_spawn hp hplaced hs hpar hspawn
  have h := Subject.prepared hs
  obtain rfl := h.program
  obtain ⟨spawns, joins, t, found, -, -, -, -, -, hcode⟩ := analyze_spec hpar hspawn
  have hsome : (effectSites s par.effects spawn).isEmpty = false := by
    rw [List.isEmpty_eq_false_iff_exists_mem]
    exact ⟨_, mem_effectSites_iff.2 ⟨k, htop, sites, hsites, rfl⟩⟩
  have hcov : (par.codeOf spawn).branch.covers s.program i = true ↔
      s.program.funcOf i ∈ s.functionsFrom (started s spawn) := by
    rw [hcode, forkCode, hsome, CodeSet.covers_iff]
    simp [TreeSet.not_mem_emptyc]
  have hstarted {f : FuncId} : f ∈ started s spawn ↔
      ∃ e ∈ s.calls.edges, e.site = spawn ∧ e.callee = f := by
    simp only [started, CallGraph.edgesAt, List.mem_map, List.mem_filter,
      decide_eq_true_eq, and_assoc]
  rw [hcov, h.mem_functionsFrom_iff fun f hf => ?_]
  · constructor
    · rintro ⟨f, hf, hreach⟩
      obtain ⟨e, he, hsite, rfl⟩ := hstarted.1 hf
      exact ⟨e, he, hsite, hreach⟩
    · rintro ⟨e, he, hsite, hreach⟩
      exact ⟨e.callee, hstarted.2 ⟨e, he, hsite, rfl⟩, hreach⟩
  · obtain ⟨e, he, -, rfl⟩ := hstarted.1 hf
    exact h.defined e he

/-- **The code beside a spawn that is never joined is closed.**  The trunk holds what control gets
to after the spawn, and, if the function of the spawn returns, after every call that control returns
to from there on; and it holds the functions that are called or started in it.  The branch holds
exactly the functions that the threads enter. -/
theorem unjoined_closed :
    (∀ i, p.isInteresting i = true → TransGen p.Follows spawn i →
      (par.codeOf spawn).trunk.covers p i = true) ∧
    ((p.returnOf (p.funcOf spawn)).isSome → ∀ site, s.ReturnSite (p.funcOf spawn) site →
      ∀ i, p.isInteresting i = true → TransGen p.Follows site i →
        (par.codeOf spawn).trunk.covers p i = true) ∧
    (∀ e ∈ s.calls.edges, (par.codeOf spawn).trunk.covers p e.site = true →
      ∀ i < p.insts.size, p.funcOf i = e.callee → (par.codeOf spawn).trunk.covers p i = true) ∧
    ∀ i, (par.codeOf spawn).branch.covers p i = true ↔
      ∃ e ∈ s.calls.edges, e.site = spawn ∧ s.calls.Reaches e.callee (p.funcOf i) := by
  refine ⟨fun i hint hpath => ?_, fun hret site hsite i hint hpath => ?_,
    fun e he hcov i hi hfunc => covers_callee hp hplaced hs hpar hspawn hnone he hcov hi hfunc,
    fun i => covers_branch_iff hp hplaced hs hpar hspawn⟩
  · obtain ⟨k, hk, htop, htakes⟩ := takesEffect_spawn hp hplaced hs hpar hspawn
    exact covers_of_takesEffect hp hplaced hs hpar hspawn hnone hk htop htakes hpath hint
  · have h := Subject.prepared hs
    obtain rfl := h.program
    have hana := ((mem_spawns_iff hp.wellFormed hplaced).1 hspawn).2
    have hlt := Program.lt_of_defined (h.defined_of_isAnalyzable hana)
    obtain ⟨spawns, joins, t, found, hkeys, -, -, -, heffects, -⟩ := analyze_spec hpar hspawn
    obtain ⟨l, hl, htakes⟩ := takesEffect_of_returnSite h hp hplaced (hkeys.2 hspawn) hana
      (outlives_of_noJoins h hnone hlt hret) hsite
    exact covers_of_takesEffect hp hplaced hs hpar hspawn hnone hl
      (h.mem_topDown hp.wellFormed hplaced (isAnalyzable_of_returnSite h hp hsite) hl)
      (heffects ▸ htakes) hpath hint

end Unjoined

/-- A function two calls below `main` starts a thread that is never joined. -/
def startedBelow : List Command :=
  [.global "t" 0, .global "g" 0, .declare "main" 0, .declare "middle" 0, .declare "start" 0,
    .declare "worker" 1, .declare "thread_create" 3, .const 0,
    .body 3, .append 3 0 (.store 1 11), .append 3 0 (.ret none),
    .body 2, .append 2 1 (.call (.direct 4) [0, 5, 11]), .append 2 1 (.ret none),
    .body 1, .append 1 2 (.call (.direct 2) []), .append 1 2 (.ret none),
    .body 0, .append 0 3 (.call (.direct 1) []), .append 0 3 (.store 1 11), .append 0 3 (.ret none)]

/-- The thread runs beside what `main` does after its call. -/
theorem unjoined_closed_startedBelow : ∃ s par,
    Subject.prepare (Builder.ofScript startedBelow) {} = .ok s ∧
    analyze s (.collect s) = .ok par ∧ 2 ∈ (Operations.collect s).spawns ∧
    (par.codeOf 2).trunk.covers (Builder.ofScript startedBelow) 7 = true ∧
    (par.codeOf 2).branch.covers (Builder.ofScript startedBelow) 0 = true := by
  have hfin : (Builder.ofScript startedBelow).Finished :=
    Builder.finished_ofScript (by decide +kernel)
  have hplaced : (Builder.ofScript startedBelow).Placed := by
    unfold Program.Placed
    decide +kernel
  have heval : (Subject.prepare (Builder.ofScript startedBelow) {}).toOption.any (fun s =>
      (analyze s (.collect s)).toOption.any fun par =>
        (par.matched.getD 2 {}).blockers.isEmpty &&
        (Operations.collect s).spawns.contains 2 && (s.callSites 2).contains 4 &&
        (s.callSites 1).contains 6 && s.calls.edges.any fun e => e.site == 2 && e.callee == 3) =
      true := by
    decide +kernel
  obtain ⟨s, hs, heval⟩ := exists_of_any_toOption heval
  obtain ⟨par, hpar, heval⟩ := exists_of_any_toOption heval
  simp only [Bool.and_eq_true, List.contains_iff_mem] at heval
  obtain ⟨⟨⟨⟨hnone, hspawn⟩, hinner⟩, houter⟩, hstart⟩ := heval
  have hprog := (Subject.prepared hs).program
  obtain ⟨-, hreturn, -, hbranch⟩ := unjoined_closed hfin hplaced hs hpar hspawn hnone
  have hfunc (i : Nat) : s.program.funcOf i = (Builder.ofScript startedBelow).funcOf i := by
    rw [hprog]
  have hsite : s.ReturnSite ((Builder.ofScript startedBelow).funcOf 2) 6 := by
    have hinner' : s.ReturnSite ((Builder.ofScript startedBelow).funcOf 2) 4 := by
      rw [show (Builder.ofScript startedBelow).funcOf 2 = 2 by decide +kernel]
      exact .call hinner
    refine .outer hinner' ?_
    rw [hfunc, show (Builder.ofScript startedBelow).funcOf 4 = 1 by decide +kernel]
    exact houter
  obtain ⟨e, he, heq⟩ := List.any_eq_true.1 hstart
  rw [Bool.and_eq_true, beq_iff_eq, beq_iff_eq] at heq
  refine ⟨s, par, hs, hpar, hspawn, ?_, (hbranch 0).2 ⟨e, he, heq.1, ?_⟩⟩
  · exact hreturn (by decide +kernel) 6 hsite 7 (by decide +kernel) (.single (by decide +kernel))
  · rw [heq.2, show (Builder.ofScript startedBelow).funcOf 0 = 3 by decide +kernel]
    exact .refl

end Parallelism

end DataRace
