import DataRace.Proofs.Parallel.Closure
import DataRace.Proofs.Parallel.Index

/-!
# DataRace.Proofs.Parallel.Refinement

The refinement by joins of other threads only takes code away.

The refined trunk of a spawn grows by the same steps as its trunk, but calls of
the spawn that is joined elsewhere are not followed, and a different choice
early on can make later code stand there at another granularity.  So the two
are not compared step by step: the trunk is closed under everything that the
steps can add (`Follows`), and the refined one never leaves closed code
(`CodeSet.Inside`).  The refined branch only enters functions that the branch has
as a whole.

* `CodeSet.Inside` — code that other code covers, at whatever granularity;
* `Inside.fromBlocks`, `Inside.after`, `Inside.enter` — what is added to such code;
* `Parallelism.refine_within` — the refined code of a spawn is within its code.
-/

namespace DataRace

open Std Relation

/-! ## code inside other code -/

namespace CodeSet

variable {p : Program} {C T : CodeSet} {f : FuncId} {i b : Nat}

/-- The code of one set is covered by another, which may hold it at a coarser granularity. -/
structure Inside (p : Program) (C T : CodeSet) : Prop where
  funcs : ∀ f ∈ T.funcs, f ∈ C.funcs
  blocks : ∀ b ∈ T.blocks, C.coversBlock p b = true
  insts : ∀ i ∈ T.insts, C.covers p i = true

theorem covers_of_coversBlock (hplaced : p.Placed) (hi : i < p.insts.size)
    (h : C.coversBlock p (p.blockOf i) = true) : C.covers p i = true := by
  rw [coversBlock_iff, hplaced i hi] at h
  exact covers_iff.2 (h.imp_right .inl)

namespace Inside

theorem covers (h : Inside p C T) (hplaced : p.Placed) (hi : i < p.insts.size)
    (hcov : T.covers p i = true) : C.covers p i = true := by
  rcases covers_iff.1 hcov with hin | hin | hin
  · exact covers_iff.2 (.inl (h.funcs _ hin))
  · exact covers_of_coversBlock hplaced hi (h.blocks _ hin)
  · exact h.insts i hin

theorem empty : Inside p C ∅ :=
  ⟨fun _ h => absurd h TreeSet.not_mem_emptyc, fun _ h => absurd h TreeSet.not_mem_emptyc,
    fun _ h => absurd h TreeSet.not_mem_emptyc⟩

theorem addFunc (h : Inside p C T) (hf : f ∈ C.funcs) : Inside p C (T.addFunc f) :=
  ⟨fun _ hg => (IdSet.mem_insert.1 hg).elim (fun heq => heq ▸ hf) (h.funcs _), h.blocks, h.insts⟩

theorem foldl_addFunc {fs : List FuncId} (h : Inside p C T) (hfs : ∀ f ∈ fs, f ∈ C.funcs) :
    Inside p C (fs.foldl .addFunc T) :=
  List.foldlRecOn (motive := Inside p C) _ _ h fun _ hU f hf => hU.addFunc (hfs f hf)

variable {c : Cut} {start : List BlockId} {r : Nat}

theorem addInsts (h : Inside p C T) {is : List InstId}
    (his : ∀ k ∈ c.openInsts p is, C.covers p k = true) : Inside p C (c.addInsts p is T) := by
  refine ⟨?_, ?_, fun k hk => (Cut.mem_addInsts.1 hk).elim (h.insts k) (his k)⟩
  · rw [Cut.funcs_addInsts]
    exact h.funcs
  · rw [Cut.blocks_addInsts]
    exact h.blocks

/-- From blocks that closed code has only code inside is entered. -/
theorem fromBlocks (h : Inside p C T) (hp : p.Finished) (hplaced : p.Placed) (hC : c.Closed p f C)
    (hstart : ∀ b ∈ start, (p.block b).func = f ∧ c.HasBlock p C b) :
    Inside p C (c.fromBlocks p start T) := by
  have hopen {b : Nat} (hb : b ∈ c.entered p start T) : c.code.coversBlock p b = false :=
    (Cut.isOpen_of_mem_entered b hb).2
  have hwhole {b : Nat} (hb : b ∈ c.entered p start T) (hhas : c.HasBlock p C b)
      (hjoin : b ∉ c.joinBlocks) : C.coversBlock p b = true := by
    rcases hhas with hcut | hin | ⟨hj, -⟩
    · rw [hopen hb] at hcut
      cases hcut
    · exact hin
    · exact absurd hj hjoin
  have hall : ∀ b ∈ c.entered p start T, (p.block b).func = f ∧ c.HasBlock p C b := by
    refine Cut.entered_induction (fun b hb _ => hstart b hb) fun a ha ⟨haf, hhas⟩ hjoin b hb _ => ?_
    have hbf := (hp.succ_spec hb).2.2
    refine ⟨hbf.trans haf, ?_⟩
    rcases coversBlock_iff.1 (hwhole ha hhas hjoin) with hin | hin
    · exact .inr (.inl (coversBlock_iff.2 (.inl (hbf ▸ hin))))
    · exact hC.block a hin haf b hb
  refine ⟨?_, fun b hb => ?_, fun k hk => ?_⟩
  · rw [Cut.funcs_fromBlocks]
    exact h.funcs
  · rcases Cut.mem_blocks_fromBlocks.1 hb with hb | ⟨hb, hjoin⟩
    · exact h.blocks b hb
    · exact hwhole hb (hall b hb).2 hjoin
  · rcases Cut.mem_insts_fromBlocks.1 hk with hk | ⟨b, hb, -, hk⟩
    · exact h.insts k hk
    · rcases (hall b hb).2 with hcut | hin | ⟨-, hinsts⟩
      · rw [hopen hb] at hcut
        cases hcut
      · obtain ⟨hlt, rfl, -⟩ := (Cut.mem_openInsts_block hp).1 hk
        exact covers_of_coversBlock hplaced hlt hin
      · exact hinsts k hk

theorem fromEntry (h : Inside p C T) (hp : p.Finished) (hplaced : p.Placed) (hC : c.Closed p f C)
    (hentry : ∀ b, (p.func f).entry = some b → c.HasBlock p C b) :
    Inside p C (c.fromEntry p f T) :=
  h.fromBlocks hp hplaced hC fun b hb =>
    ⟨(Cut.entry_spec hp (Option.mem_toList.1 hb)).2, hentry b (Option.mem_toList.1 hb)⟩

/-- What runs after an instruction is inside closed code that has what follows it. -/
theorem after (h : Inside p C T) (hp : p.Finished) (hplaced : p.Placed) (hr : r < p.insts.size)
    (hC : c.Closed p (p.funcOf r) C) (hpass : c.Passes p C r) : Inside p C (c.after p T r) := by
  have hrest := h.addInsts hpass.rest
  simp only [Cut.after]
  split
  · exact h
  · split
    · exact hrest
    · next hjoin =>
      refine hrest.fromBlocks hp hplaced hC fun b hb => ⟨?_, hpass.succs ?_ b hb⟩
      · rw [(hp.succ_spec hb).2.2, hplaced r hr]
      · exact fun hj => hjoin (TreeSet.contains_iff_mem.2 hj)

end Inside

end CodeSet

open CodeSet

namespace Parallelism

variable {p : Program} {c : Config} {s : Subject} {m : JoinMatch} {L : List (Component × IdSet)}
  {C T : CodeSet} {excluded : Option InstId}

/-- Code that is closed under all that the trunk of a spawn grows by: it holds what runs after the
sites, and what runs when one of its calls enters a function. -/
structure Saturated (s : Subject) (m : JoinMatch) (L : List (Component × IdSet)) (C : CodeSet) :
    Prop where
  closed : ∀ f < s.program.funcs.size, (m.cutIn f).Closed s.program f C
  entered : ∀ f < s.program.funcs.size, s.Reenters f C → Has s.program m f C
  after : ∀ x ∈ L, ∀ r ∈ x.2, r < s.program.insts.size ∧
    (m.cutIn (s.program.funcOf r)).Passes s.program C r
  members : ∀ x ∈ L, x.1.recursive = true → ∀ f ∈ x.1.members, f ∈ C.funcs

section

variable (hp : s.program.Finished) (hplaced : s.program.Placed) (h : s.Prepared p c)

include hp hplaced h

/-- The trunk of a spawn is closed under all that it grows by. -/
theorem saturated_trunkOf (hframed : ∀ f, (m.cutIn f).Framed s.program)
    (hsome : ∀ x ∈ L, ∃ r, r ∈ x.2)
    (hL : ∀ x ∈ L, ∀ r ∈ x.2, r < s.program.insts.size ∧
      (s.program.op r).isTerminator = false ∧ s.program.funcOf r ∈ x.1.members) :
    Saturated s m L (trunkOf s m L none) := by
  have hspec {f : FuncId} (hf : f < s.program.funcs.size) :=
    trunkOf_spec hp hplaced h hf (hframed f) (A := fun _ => True) (L := L) fun x hx =>
      ⟨hL x hx, fun _ _ _ => trivial, fun _ _ _ _ _ _ => trivial⟩
  have hsite {x : Component × IdSet} (hx : x ∈ L) {r : Nat} (hr : r ∈ x.2) :=
    hspec (Program.lt_of_defined (hp.wellFormed.defined_funcOf (hL x hx r hr).1))
  refine ⟨fun f hf => (hspec hf).1.closed, fun f hf => (hspec hf).1.entered, fun x hx r hr => ?_,
    fun x hx hrec f hf => ?_⟩
  · exact ⟨(hL x hx r hr).1, ((hsite hx hr).2 x hx).1 r hr rfl⟩
  · obtain ⟨r, hr⟩ := hsome x hx
    exact ((hsite hx hr).2 x hx).2 hrec f hf

/-- From functions that closed code has only code inside is entered. -/
theorem Saturated.enter (hC : Saturated s m L C) (hT : Inside s.program C T) {start : List FuncId}
    (hstart : ∀ f ∈ start, Has s.program m f C) :
    Inside s.program C (s.enter m.cutIn excluded start T) := by
  unfold Subject.enter
  simp only
  refine (Search.explore_induction (P := fun _ stack code => Inside s.program C code ∧
    ∀ f ∈ stack, Has s.program m f C) ?_ ?_ ⟨hT, fun f hf => ?_⟩).elim fun _ hend => hend.1
  · exact fun _ x rest code ⟨hcode, hstack⟩ _ =>
      ⟨hcode, fun f hf => hstack f (List.mem_cons_of_mem x hf)⟩
  · rintro _ x rest code ⟨hcode, hstack⟩ hx -
    have hhas := hstack x List.mem_cons_self
    have hvisited : Inside s.program C (visitedCode s m code x) := by
      unfold visitedCode
      split
      · next hempty => exact hcode.addFunc (hhas.whole hempty)
      · exact hcode.fromEntry hp hplaced (hC.closed x hx) hhas.entry
    refine ⟨hvisited, fun g hg => ?_⟩
    rcases List.mem_append.1 hg with hg | hg
    · have hg := (List.mem_filter.1 (List.mem_reverse.1 hg)).1
      obtain ⟨e, he, rfl, rfl, htaken⟩ := (mem_enteredAt_iff hp hplaced h).1 hg
      rw [Bool.and_eq_true, Bool.or_eq_true] at htaken
      refine hC.entered _ (h.program ▸ Program.lt_of_defined (h.defined e he)) ⟨e, he, rfl, ?_⟩
      rcases htaken.2 with hempty | hcov
      · exact covers_iff.2 (.inl (hhas.whole hempty))
      · exact hvisited.covers hplaced (h.program ▸ (h.edge_spec he).1) hcov
    · exact hstack g (List.mem_cons_of_mem x hg)
  · exact hstart f (List.mem_filter.1 (List.mem_reverse.1 hf)).1

/-- What the refinement adds for a component is inside the trunk. -/
theorem Saturated.addTrunk (hC : Saturated s m L C) (hT : Inside s.program C T)
    {x : Component × IdSet} (hx : x ∈ L) :
    Inside s.program C (addTrunk s m excluded T x) := by
  obtain ⟨comp, sites⟩ := x
  have hmembers : Inside s.program C (withMembers comp T) := by
    unfold withMembers
    split
    · next hrec => exact hT.foldl_addFunc (hC.members _ hx hrec)
    · exact hT
  have hown : Inside s.program C (ownCode s m T comp sites) := by
    refine List.foldlRecOn (motive := Inside s.program C) _ _ hmembers fun U hU r hr => ?_
    obtain ⟨hlt, hpass⟩ := hC.after _ hx r (TreeSet.mem_toList.1 hr)
    unfold afterSite
    split
    · exact hU
    · exact hU.after hp hplaced hlt
        (hC.closed _ (Program.lt_of_defined (hp.wellFormed.defined_funcOf hlt))) hpass
  rw [addTrunk_eq]
  refine hC.enter hp hplaced h hown fun f hf => ?_
  obtain ⟨g, -, hf⟩ := List.mem_flatMap.1 hf
  obtain ⟨e, he, rfl, -, htaken⟩ := (mem_enteredAt_iff hp hplaced h).1 hf
  rw [Bool.and_eq_true] at htaken
  refine hC.entered _ (h.program ▸ Program.lt_of_defined (h.defined e he)) ⟨e, he, rfl, ?_⟩
  exact hown.covers hplaced (h.program ▸ (h.edge_spec he).1) htaken.2

theorem Saturated.trunkOf (hC : Saturated s m L C) :
    Inside s.program C (trunkOf s m L excluded) :=
  List.foldlRecOn (motive := Inside s.program C) _ _ .empty fun _ hT _ hx =>
    hC.addTrunk hp hplaced h hT hx

omit hplaced in
/-- The functions that are reached as a whole are closed under all that is entered. -/
theorem saturated_functionsFrom (start : List FuncId) :
    Saturated s m [] { funcs := s.functionsFrom start } := by
  refine ⟨fun f _ => ⟨?_, ?_, ?_⟩, fun f hf ⟨e, he, hcallee, hcov⟩ => ?_, nofun, nofun⟩
  · exact fun _ hb => absurd hb TreeSet.not_mem_emptyc
  · exact fun _ hb => absurd hb TreeSet.not_mem_emptyc
  · exact fun _ hi => absurd hi TreeSet.not_mem_emptyc
  · have hcaller : s.program.funcOf e.site ∈ s.functionsFrom start := by
      simpa [CodeSet.covers, TreeSet.contains_iff_mem] using hcov
    subst hcallee
    refine has_of_mem_funcs hp (IdSet.mem_filter.2 ⟨?_, ?_⟩)
    · refine mem_reachable_of_next (IdSet.mem_filter.1 hcaller).1 ?_ hf
      refine List.mem_map.2 ⟨e, List.mem_filter.2 ⟨he, decide_eq_true ?_⟩, rfl⟩
      rw [h.program]
      exact (h.edge_spec he).2.2
    · rw [h.program, h.defined e he]
      rfl

/-- What is entered from some functions on is of functions that are reached as a whole. -/
theorem inside_enter_functionsFrom {start : List FuncId}
    (hstart : ∀ f ∈ start, (p.func f).isDeclaration = false) :
    Inside s.program { funcs := s.functionsFrom start } (s.enter m.cutIn excluded start ∅) := by
  refine (saturated_functionsFrom hp h start).enter hp hplaced h .empty fun f hf => ?_
  have hdef := hstart f hf
  refine has_of_mem_funcs hp (IdSet.mem_filter.2 ⟨?_, ?_⟩)
  · exact mem_reachable_of_start hf (h.program ▸ Program.lt_of_defined hdef)
  · rw [h.program, hdef]
    rfl

end

/-! ## the refined code -/

/-- Cutting off code keeps single instructions in blocks with a join. -/
theorem framed_add (hp : p.Finished) (dom : Dominance) {cut : Cut} (hcut : cut.Framed p)
    (b : Blocker) : (Cut.add p dom cut b).Framed p := by
  cases b with
  | block b =>
    intro k hk
    rw [Cut.add, JoinMatch.foldl_addBlock_eq] at hk
    exact hcut k hk
  | inst i =>
    intro k hk
    rw [Cut.add, JoinMatch.foldl_addBlock_eq, Cut.mem_addInsts] at hk
    refine IdSet.mem_insert.2 (hk.symm.imp (fun hk => ?_) (hcut k))
    exact ((Cut.mem_openInsts_after hp).1 hk).2.1.symm

theorem framed_of {t : ThreadSite} {joins : List ThreadSite} {found : List InstId}
    (hp : s.program.Finished) (hm : JoinMatch.of s t joins = .ok (found, m)) (f : FuncId) :
    (m.cutIn f).Framed s.program := by
  obtain ⟨bs, -, hm⟩ := exists_of_bind_eq_ok hm
  cases hm
  rw [JoinMatch.cutIn_ofBlockers]
  exact List.foldlRecOn (motive := (Cut.Framed · s.program)) _ _ framed_noCut
    fun _ hcut b _ => framed_add hp _ hcut b

variable {par : Parallelism} {spawn own i : Nat}

/-- Joins are matched to spawns. -/
theorem mem_spawns_of_matched {ops : Operations} (hpar : analyze s ops = .ok par)
    (hm : par.matched[spawn]? = some m) : spawn ∈ ops.spawns := by
  unfold analyze at hpar
  obtain ⟨spawns, hspawns, hpar⟩ := exists_of_bind_eq_ok hpar
  obtain ⟨joins, -, hpar⟩ := exists_of_bind_eq_ok hpar
  obtain ⟨found, hfound, hpar⟩ := exists_of_bind_eq_ok hpar
  cases hpar
  have hkeys : ∀ k, k ∈ found.foldl (fun (m : IdMap JoinMatch) x => m.insert x.1 x.2.2) ∅ →
      ∃ x ∈ found, x.1 = k := by
    refine List.foldlRecOn (motive := fun m : IdMap JoinMatch => ∀ k, k ∈ m → ∃ x ∈ found, x.1 = k)
      _ _ (fun k hk => absurd hk TreeMap.not_mem_emptyc) fun m hkeys x hx k hk => ?_
    rcases TreeMap.mem_insert.1 hk with heq | hk
    · exact ⟨x, hx, LawfulEqCmp.compare_eq_iff_eq.1 heq⟩
    · exact hkeys k hk
  obtain ⟨x, hx, rfl⟩ := hkeys spawn (TreeMap.mem_iff_isSome_getElem?.2 (hm ▸ rfl))
  obtain ⟨⟨i, t⟩, ht, hx⟩ := (mem_of_mapM_eq_ok hfound).1 x hx
  obtain ⟨r, -, hx⟩ := exists_of_bind_eq_ok hx
  cases hx
  exact ((sitesOf_spec hspawns).1.1 (TreeMap.mem_toList_iff_getElem?_eq_some.1 ht)).1

/-- The code of a spawn left without another spawn, as the refinement finds it. -/
def refinedFor (s : Subject) (par : Parallelism) (spawn own : InstId) : ForkCode :=
  match par.matched[spawn]? with
  | some m => refinedCode s m (par.matched.getD own {}) spawn own (effectSites s par.effects spawn)
  | none => {}

/-- A table of two keys filled entry by entry. -/
theorem getElem?_foldl_insert₂ {α : Type} {f : Nat → Nat → α} {xs : List (Nat × Nat)}
    {m : IdMap (IdMap α)} {k j : Nat} :
    ((xs.foldl (fun m (x, y) => m.insert x ((m.getD x ∅).insert y (f x y))) m).getD k ∅)[j]? =
      if (k, j) ∈ xs then some (f k j) else (m.getD k ∅)[j]? := by
  induction xs generalizing m with
  | nil => simp
  | cons e xs ih =>
    obtain ⟨x, y⟩ := e
    rw [List.foldl_cons, ih, IdMap.getD_insert]
    by_cases hmem : (k, j) ∈ xs
    · simp [hmem]
    · by_cases hx : x = k
      · subst hx
        by_cases hy : y = j
        · simp [hy]
        · simp [hmem, hy, Ne.symm hy, TreeMap.getElem?_insert]
      · simp [hmem, hx, Ne.symm hx]

/-- A join that is matched to a spawn stands on neither side of it, but on a side of another
fork. -/
def JoinedElsewhere (p : Program) (par : Parallelism) (spawn own : InstId) : Prop :=
  ∃ join info, par.joins[join]? = some info ∧ info.matched = some own ∧
    (par.codeOf own).covers p join = false ∧ ∃ a ∈ par.pointsOf p join, a.spawn = spawn

theorem mem_joinedElsewhere_iff :
    (spawn, own) ∈ par.joinedElsewhere s ↔ JoinedElsewhere s.program par spawn own := by
  rw [joinedElsewhere, List.mem_flatMap]
  constructor
  · rintro ⟨⟨join, info⟩, hjoin, hin⟩
    rw [TreeMap.mem_toList_iff_getElem?_eq_some] at hjoin
    cases hmatched : info.matched with
    | none => simp [hmatched] at hin
    | some other =>
      simp only [hmatched, List.mem_ite_nil_left, Bool.not_eq_true, List.mem_map,
        Prod.mk.injEq] at hin
      obtain ⟨hout, a, ha, rfl, rfl⟩ := hin
      exact ⟨join, info, hjoin, hmatched, hout, a, ha, rfl⟩
  · rintro ⟨join, info, hjoin, hmatched, hout, a, ha, rfl⟩
    refine ⟨(join, info), TreeMap.mem_toList_iff_getElem?_eq_some.2 hjoin, ?_⟩
    simp only [hmatched, List.mem_ite_nil_left, Bool.not_eq_true]
    exact ⟨hout, List.mem_map_of_mem ha⟩

/-- The refinement finds code for the spawns with a join of another one, and for no others. -/
theorem getElem?_refined_iff {refined : IdMap (IdMap ForkCode)}
    (hrefined : (par.refine s).refined = some refined) {code : ForkCode} :
    (refined.getD spawn ∅)[own]? = some code ↔
      JoinedElsewhere s.program par spawn own ∧ refinedFor s par spawn own = code := by
  cases hrefined
  rw [← mem_joinedElsewhere_iff]
  refine (Eq.congr_left (getElem?_foldl_insert₂ (f := refinedFor s par))).trans ?_
  simp

/-- The refined code of a spawn is within its code. -/
theorem covers_of_refinedFor (hp : p.Finished) (hplaced : p.Placed)
    (hs : Subject.prepare p c = .ok s) (hpar : analyze s (.collect s) = .ok par)
    (hi : i < p.insts.size) :
    ((refinedFor s par spawn own).trunk.covers p i = true →
      (par.codeOf spawn).trunk.covers p i = true) ∧
    ((refinedFor s par spawn own).branch.covers p i = true →
      (par.codeOf spawn).branch.covers p i = true) := by
  have h := Subject.prepared hs
  obtain rfl := h.program
  unfold refinedFor
  split
  · next m hm =>
    have hspawn := mem_spawns_of_matched hpar hm
    obtain ⟨spawns, joins, t, found, -, -, -, hmatch, -, hcode⟩ := analyze_spec hpar hspawn
    rw [IdMap.getD_of_getElem? hm] at hmatch hcode
    rw [hcode]
    constructor
    · intro hcov
      rw [forkCode, covers_reduce hplaced hi]
      have hC := saturated_trunkOf hp hplaced h (framed_of hp hmatch) ?_
        (effectSites_site hp hplaced hs hpar hspawn)
      · exact (hC.trunkOf hp hplaced h).covers hplaced hi hcov
      · intro x hx
        obtain ⟨k, -, sites, hsites, rfl⟩ := mem_effectSites_iff.1 hx
        exact (effectsHold_analyze hp hplaced hs hpar hspawn k spawn sites hsites).1
    · simp only [refinedCode, forkCode]
      split
      · exact id
      · refine (inside_enter_functionsFrom hp hplaced h fun f hf => ?_).covers hplaced hi
        obtain ⟨e, he, rfl⟩ := List.mem_map.1 hf
        exact h.defined e (List.mem_filter.1 he).1
  · exact ⟨Inside.empty.covers hplaced hi, Inside.empty.covers hplaced hi⟩

/-- **The refinement only takes away, and leaves the answers without it alone.**  The code of every
fork, the sides of forks that an instruction is on, and the forks and points under which two
instructions may run at the same time are as before.  Code is found again for the spawns with a join
of another one, and what it covers the code of the spawn covers on the same side. -/
theorem refine_within (hp : p.Finished) (hplaced : p.Placed) (hs : Subject.prepare p c = .ok s)
    (hpar : analyze s (.collect s) = .ok par) :
    ((∀ spawn, (par.refine s).codeOf spawn = par.codeOf spawn) ∧
      (∀ i, (par.refine s).pointsOf p i = par.pointsOf p i) ∧
      (∀ i j, (par.refine s).mayRunParallel p i j = par.mayRunParallel p i j) ∧
      ∀ i j, (par.refine s).parallelPoints p i j = par.parallelPoints p i j) ∧
    ∃ refined, (par.refine s).refined = some refined ∧ ∀ spawn own : InstId,
      ((∃ code, (refined.getD spawn ∅)[own]? = some code) ↔ JoinedElsewhere p par spawn own) ∧
      ∀ code, (refined.getD spawn ∅)[own]? = some code → ∀ i < p.insts.size,
        (code.trunk.covers p i = true → (par.codeOf spawn).trunk.covers p i = true) ∧
        (code.branch.covers p i = true → (par.codeOf spawn).branch.covers p i = true) := by
  refine ⟨⟨fun _ => rfl, fun _ => rfl, fun _ _ => rfl, fun _ _ => rfl⟩, _, rfl, fun spawn own => ?_⟩
  simp only [getElem?_refined_iff rfl, (Subject.prepared hs).program]
  refine ⟨by simp, fun code ⟨_, hcode⟩ i hi => ?_⟩
  rw [← hcode]
  exact covers_of_refinedFor hp hplaced hs hpar hi

/-! ## an example -/

/-- Code is in the trunk of a spawn for one of three reasons: its function may run again, the spawn
takes effect in the function, or a call inside enters it. -/
theorem cases_of_covers_trunk (hp : p.Finished) (hplaced : p.Placed)
    (hs : Subject.prepare p c = .ok s) (hpar : analyze s (.collect s) = .ok par)
    (hspawn : spawn ∈ (Operations.collect s).spawns) (hint : p.isInteresting i = true)
    (hcov : (par.codeOf spawn).trunk.covers p i = true) :
    (∃ x ∈ effectSites s par.effects spawn, x.1.recursive = true ∧ p.funcOf i ∈ x.1.members) ∨
      (∃ x ∈ effectSites s par.effects spawn, ∃ r ∈ x.2, p.funcOf r = p.funcOf i) ∨
      ∃ e ∈ s.calls.edges, e.callee = p.funcOf i ∧
        (par.codeOf spawn).trunk.covers p e.site = true := by
  have h := Subject.prepared hs
  obtain rfl := h.program
  have hi : i < s.program.insts.size := Program.lt_of_op_ne fun hop => by
    rw [Program.isInteresting, hop] at hint
    cases hint
  have hL := effectSites_site hp hplaced hs hpar hspawn
  obtain ⟨spawns, joins, t, found, -, -, -, hmatch, -, hcode⟩ := analyze_spec hpar hspawn
  rw [hcode, forkCode] at hcov ⊢
  rw [covers_reduce hplaced hi] at hcov
  have htrunk := (trunkOf_spec hp hplaced h (f := s.program.funcOf i)
    (Program.lt_of_defined (hp.wellFormed.defined_funcOf hi)) (framed_of hp hmatch _)
    (A := fun _ => (∃ x ∈ effectSites s par.effects spawn, x.1.recursive = true ∧
        s.program.funcOf i ∈ x.1.members) ∨
      ∃ x ∈ effectSites s par.effects spawn, ∃ r ∈ x.2, s.program.funcOf r = s.program.funcOf i)
    fun x hx => ⟨hL x hx, fun hrec hmem _ => .inl ⟨x, hx, hrec, hmem⟩,
      fun r hr hrf _ _ _ => .inr ⟨x, hx, r, hr, hrf⟩⟩).1
  rcases htrunk.sound i hi hint rfl hcov with (hrec | hsite) | ⟨⟨e, he, hcallee, hin⟩, -⟩
  · exact .inl hrec
  · exact .inr (.inl hsite)
  · refine .inr (.inr ⟨e, he, hcallee, ?_⟩)
    rwa [covers_reduce hplaced (h.edge_spec he).1]

/-- A thread joins a thread that another one starts. -/
def joinedByOther : List Command :=
  [.global "t" 0, .global "u" 0, .global "v" 0, .global "g" 0, .declare "main" 0,
    .declare "first" 1, .declare "second" 1, .declare "starter" 1, .declare "thread_create" 3,
    .declare "thread_join" 2, .const 0,
    .body 1, .append 1 0 (.store 3 18), .append 1 0 (.ret none),
    .body 2, .append 2 1 (.store 3 18), .append 2 1 (.load 0),
    .append 2 1 (.call (.direct 5) [19, 18]), .append 2 1 (.store 3 18), .append 2 1 (.ret none),
    .body 3, .append 3 2 (.call (.direct 4) [0, 5, 18]), .append 3 2 (.ret none),
    .body 0, .append 0 3 (.call (.direct 4) [1, 7, 18]), .append 0 3 (.call (.direct 4) [2, 9, 18]),
    .append 0 3 (.ret none)]

/-- The join in the second thread is found for the spawn of that thread, and its code is left
smaller. -/
theorem refine_within_joinedByOther : ∃ s par refined code,
    (Builder.ofScript joinedByOther).Finished ∧ (Builder.ofScript joinedByOther).Placed ∧
    Subject.prepare (Builder.ofScript joinedByOther) {} = .ok s ∧
    analyze s (.collect s) = .ok par ∧ (par.refine s).refined = some refined ∧
    (refined.getD 9 ∅)[7]? = some code ∧
    ∀ i < (Builder.ofScript joinedByOther).insts.size,
      (code.branch.covers (Builder.ofScript joinedByOther) i = true →
        (par.codeOf 9).branch.covers (Builder.ofScript joinedByOther) i = true) := by
  have hfin : (Builder.ofScript joinedByOther).Finished :=
    Builder.finished_ofScript (by decide +kernel)
  have hplaced : (Builder.ofScript joinedByOther).Placed := by
    unfold Program.Placed
    decide +kernel
  have heval : (Subject.prepare (Builder.ofScript joinedByOther) {}).toOption.any (fun s =>
      (analyze s (.collect s)).toOption.any fun par =>
        (Operations.collect s).spawns.contains 7 &&
        (par.joins[4]?.any fun info => info.matched.any (· == 7)) &&
        !(par.codeOf 7).branch.covers (Builder.ofScript joinedByOther) 4 &&
        (par.codeOf 9).branch.covers (Builder.ofScript joinedByOther) 4 &&
        ((effectSites s par.effects 7).all fun x => !x.1.recursive &&
          x.2.toList.all ((Builder.ofScript joinedByOther).funcOf · == 3)) &&
        s.calls.edges.all fun e => e.callee != 0 && (e.callee != 2 || e.site == 9)) = true := by
    decide +kernel
  obtain ⟨s, hs, heval⟩ := exists_of_any_toOption heval
  obtain ⟨par, hpar, heval⟩ := exists_of_any_toOption heval
  simp only [Bool.and_eq_true, Bool.not_eq_true', List.all_eq_true, List.contains_iff_mem] at heval
  obtain ⟨⟨⟨⟨⟨hspawn, hjoin⟩, hnot⟩, hbranch⟩, hsites⟩, hedges⟩ := heval
  -- outside `starter` code is in the trunk only if a call in the trunk enters it
  have hcalled (i : Nat) (hint : (Builder.ofScript joinedByOther).isInteresting i = true)
      (hne : (Builder.ofScript joinedByOther).funcOf i ≠ 3)
      (hcov : (par.codeOf 7).trunk.covers (Builder.ofScript joinedByOther) i = true) :
      ∃ e ∈ s.calls.edges, e.callee = (Builder.ofScript joinedByOther).funcOf i ∧
        (par.codeOf 7).trunk.covers (Builder.ofScript joinedByOther) e.site = true := by
    rcases cases_of_covers_trunk hfin hplaced hs hpar hspawn hint hcov with
      ⟨x, hx, hrec, -⟩ | ⟨x, hx, r, hr, hrf⟩ | hcall
    · rw [(hsites x hx).1] at hrec
      cases hrec
    · exact absurd (hrf ▸ beq_iff_eq.1 ((hsites x hx).2 r (TreeSet.mem_toList.2 hr))) hne
    · exact hcall
  have hout : (par.codeOf 7).covers (Builder.ofScript joinedByOther) 4 = false := by
    rw [ForkCode.covers, hnot, Bool.or_false]
    by_contra hin
    rw [Bool.not_eq_false] at hin
    obtain ⟨e, he, hcallee, hcov⟩ := hcalled 4 (by decide +kernel) (by decide +kernel) hin
    rw [show (Builder.ofScript joinedByOther).funcOf 4 = 2 by decide +kernel] at hcallee
    have hsite : e.site = 9 := by simpa [hcallee] using hedges e he
    rw [hsite] at hcov
    -- the second thread is entered by `main` only, and nothing enters `main`
    obtain ⟨d, hd, hcallee, -⟩ := hcalled 9 (by decide +kernel) (by decide +kernel) hcov
    rw [show (Builder.ofScript joinedByOther).funcOf 9 = 0 by decide +kernel] at hcallee
    simpa [hcallee] using hedges d hd
  obtain ⟨info, hinfo, hmatched⟩ := (Option.any_eq_true _ _).1 hjoin
  obtain ⟨own, hown, heq⟩ := (Option.any_eq_true _ _).1 hmatched
  obtain rfl := beq_iff_eq.1 heq
  have hpoint : Point.branch 9 ∈ par.pointsOf (Builder.ofScript joinedByOther) 4 :=
    (mem_pointsOf_branch (indexed_of_analyze (Subject.prepared hs).program hpar)).2 (.inl hbranch)
  obtain ⟨-, refined, hrefined, hwithin⟩ := refine_within hfin hplaced hs hpar
  obtain ⟨code, hcode⟩ := (hwithin 9 7).1.2 ⟨4, info, hinfo, hown, hout, _, hpoint, rfl⟩
  exact ⟨s, par, refined, code, hfin, hplaced, hs, hpar, hrefined, hcode,
    fun i hi => ((hwithin 9 7).2 code hcode i hi).2⟩

end Parallelism

end DataRace
