import DataRace.Parallel.Basic
import DataRace.Proofs.Parallel.Reach

/-!
# DataRace.Proofs.Parallel.Enter

What the trunk of a fork holds of one function.

The trunk grows over the whole call graph, but as far as one function is
concerned only three things happen to it: code after a point of the function is
added, the function is added as a whole, or it is entered by a call that is in
the trunk already.  `Trunk` says what follows from that and is kept by every
step; the function and the reasons `A` for its code are fixed.

* `Grown.enter` — following calls keeps the invariant;
* `Trunk.addTrunk` — so does the code of one component;
* `covers_trunkOf_iff` — what the trunk of a fork covers in the end.
-/

namespace DataRace

open Std Relation CodeSet

variable {p : Program} {c : Config} {s : Subject} {m : JoinMatch} {f : FuncId} {A : InstId → Prop}
  {T U : CodeSet}

/-- Some call inside leads into a function. -/
def Subject.Reenters (s : Subject) (f : FuncId) (T : CodeSet) : Prop :=
  ∃ e ∈ s.calls.edges, e.callee = f ∧ T.covers s.program e.site = true

theorem Subject.Reenters.mono (h : s.Reenters f T) (hTU : T.Within U) : s.Reenters f U := by
  obtain ⟨e, he, hf, hcov⟩ := h
  exact ⟨e, he, hf, hTU.covers hcov⟩

namespace Parallelism

/-- A function is inside as it is when it is entered. -/
structure Has (p : Program) (m : JoinMatch) (f : FuncId) (T : CodeSet) : Prop where
  whole : (m.cutIn f).isEmpty = true → f ∈ T.funcs
  entry : ∀ b, (p.func f).entry = some b → (m.cutIn f).HasBlock p T b

/-- An instruction runs when its function is entered: all do if nothing is cut off, else those that
open steps from the start lead to. -/
def FromStart (p : Program) (m : JoinMatch) (f : FuncId) (i : InstId) : Prop :=
  (m.cutIn f).isEmpty = true ∨ (∃ k, p.start? f = some k ∧ ReflTransGen ((m.cutIn f).Step p) k i) ∧
    (m.cutIn f).code.covers p i = false

/-- What is known about the code of one function all along. -/
structure Grown (s : Subject) (m : JoinMatch) (f : FuncId) (A : InstId → Prop) (T : CodeSet) :
    Prop where
  closed : (m.cutIn f).Closed s.program f T
  sound : ∀ i < s.program.insts.size, s.program.isInteresting i = true → s.program.funcOf i = f →
    T.covers s.program i = true → A i ∨ s.Reenters f T ∧ FromStart s.program m f i

/-- What is known when all calls inside are followed. -/
structure Trunk (s : Subject) (m : JoinMatch) (f : FuncId) (A : InstId → Prop) (T : CodeSet) :
    Prop extends Grown s m f A T where
  entered : s.Reenters f T → Has s.program m f T

theorem Has.mono (h : Has p m f T) (hTU : T.Within U) : Has p m f U :=
  ⟨fun he => hTU.funcs f (h.whole he), fun b hb => (h.entry b hb).mono hTU⟩

theorem has_of_mem_funcs (hp : p.Finished) (h : f ∈ T.funcs) : Has p m f T := by
  refine ⟨fun _ => h, fun b hb => .inr (.inl (coversBlock_iff.2 (.inl ?_)))⟩
  rwa [(Cut.entry_spec hp hb).2]

theorem trunk_empty : Trunk s m f A ∅ := by
  have hnone (i : Nat) : (∅ : CodeSet).covers s.program i ≠ true := by simp [covers_empty]
  exact ⟨⟨Cut.closed_empty, fun i _ _ _ h => absurd h (hnone i)⟩,
    fun ⟨e, _, _, h⟩ => absurd h (hnone e.site)⟩

/-- Code of other functions does not matter. -/
theorem Grown.of_adds (h : Grown s m f A T) (hplaced : s.program.Placed) {F : FuncId → Prop}
    (hadds : Adds s.program F T U) (hF : ¬F f) : Grown s m f A U := by
  refine ⟨h.closed.of_adds hadds hF, fun i hi hint hf hcov => ?_⟩
  have hcov := hadds.covers_of_not hplaced hi (hf ▸ hF) hcov
  exact (h.sound i hi hint hf hcov).imp_right fun h => ⟨h.1.mono hadds.toWithin, h.2⟩

section

variable (hp : s.program.Finished) (hplaced : s.program.Placed) (h : s.Prepared p c)

/-! ## following calls -/

include hp hplaced h in
theorem mem_enteredAt_iff {f g : FuncId} {isTaken : InstId → Bool} : g ∈ s.enteredAt f isTaken ↔
    ∃ e ∈ s.calls.edges, e.callee = g ∧ s.program.funcOf e.site = f ∧ isTaken e.site = true := by
  obtain rfl := h.program
  simp only [Subject.enteredAt, CallGraph.edgesAt, List.mem_flatMap, List.mem_filter, List.mem_map,
    Bool.and_eq_true, decide_eq_true_eq, hplaced.mem_funcInsts_iff hp.wellFormed]
  constructor
  · rintro ⟨i, ⟨⟨-, hf⟩, -, htaken⟩, e, ⟨he, rfl⟩, hg⟩
    exact ⟨e, he, hg, hf, htaken⟩
  · rintro ⟨e, he, hg, hf, htaken⟩
    obtain ⟨hlt, hcall, -⟩ := h.edge_spec he
    exact ⟨e.site, ⟨⟨hlt, hf⟩, hcall, htaken⟩, e, ⟨he, rfl⟩, hg⟩

/-- The code after a function was visited. -/
def visitedCode (s : Subject) (m : JoinMatch) (code : CodeSet) (g : FuncId) : CodeSet :=
  if (m.cutIn g).isEmpty then code.addFunc g else (m.cutIn g).fromEntry s.program g code

/-- The functions to visit after it. -/
def followed (s : Subject) (m : JoinMatch) (out code : CodeSet) (g : FuncId) : List FuncId :=
  (s.enteredAt g fun i => (none : Option InstId) != some i &&
    ((m.cutIn g).isEmpty || (visitedCode s m code g).covers s.program i)).filter fun f =>
      !(s.program.func f).isDeclaration && !out.funcs.contains f

theorem enter_eq (start : List FuncId) (out : CodeSet) : s.enter m.cutIn none start out =
    Search.explore s.program.funcs.size
      (fun code g => (visitedCode s m code g, followed s m out code g)) ∅
      (start.filter fun f => !(s.program.func f).isDeclaration &&
        !out.funcs.contains f).reverse out :=
  rfl

include hp hplaced in
theorem adds_visitedCode {code : CodeSet} {g : FuncId} :
    Adds s.program (· = g) code (visitedCode s m code g) := by
  unfold visitedCode
  split
  · exact adds_addFunc code g
  · exact Cut.adds_fromEntry hp hplaced

include hp hplaced h in
theorem mem_followed_iff {out code : CodeSet} {g y : FuncId} : y ∈ followed s m out code g ↔
    y ∉ out.funcs ∧ ∃ e ∈ s.calls.edges, e.callee = y ∧ s.program.funcOf e.site = g ∧
      (visitedCode s m code g).covers s.program e.site = true := by
  have hdef (e : CallEdge) (he : e ∈ s.calls.edges) :
      (s.program.func e.callee).isDeclaration = false := by
    rw [h.program]
    exact h.defined e he
  have htaken (e : CallEdge) (hg : s.program.funcOf e.site = g) :
      ((m.cutIn g).isEmpty || (visitedCode s m code g).covers s.program e.site) =
        (visitedCode s m code g).covers s.program e.site := by
    cases hempty : (m.cutIn g).isEmpty with
    | false => rfl
    | true =>
      rw [Bool.true_or, eq_comm, covers_iff, visitedCode, if_pos hempty, hg]
      exact .inl (IdSet.mem_insert.2 (.inl rfl))
  rw [followed, List.mem_filter, mem_enteredAt_iff hp hplaced h, Bool.and_eq_true,
    Bool.not_eq_true',
    Bool.not_eq_true', ← Bool.not_eq_true (out.funcs.contains y), TreeSet.contains_iff_mem]
  constructor
  · rintro ⟨⟨e, he, rfl, hg, ht⟩, -, hout⟩
    rw [Bool.and_eq_true, htaken e hg] at ht
    exact ⟨hout, e, he, rfl, hg, ht.2⟩
  · rintro ⟨hout, e, he, rfl, hg, ht⟩
    refine ⟨⟨e, he, rfl, hg, ?_⟩, hdef e he, hout⟩
    rw [Bool.and_eq_true, htaken e hg]
    exact ⟨rfl, ht⟩

/-- What is known while functions are entered. -/
structure Entering (s : Subject) (m : JoinMatch) (f : FuncId) (A : InstId → Prop) (out : CodeSet)
    (seen : IdSet) (stack : List FuncId) (code : CodeSet) : Prop extends Grown s m f A code where
  within : out.Within code
  stacked : f ∈ stack → s.Reenters f code
  done : f ∈ seen → Has s.program m f code
  called : s.Reenters f code → f ∈ stack ∨ Has s.program m f code

variable {out code : CodeSet} {seen : IdSet} {rest : List FuncId} {x : FuncId}

include hp in
theorem Has.visited : Has s.program m f (visitedCode s m code f) := by
  unfold visitedCode
  split
  · exact has_of_mem_funcs hp (IdSet.mem_insert.2 (.inl rfl))
  · next hempty => exact ⟨fun he => absurd he hempty, fun b hb => Cut.hasBlock_fromEntry hp hb⟩

include hp hplaced in
/-- Visiting the function itself adds what runs from its start on. -/
theorem Grown.visited (hg : Grown s m f A code) (hre : s.Reenters f code)
    (hc : (m.cutIn f).Framed s.program) :
    Grown s m f A (visitedCode s m code f) := by
  have hre : s.Reenters f (visitedCode s m code f) :=
    hre.mono (adds_visitedCode hp hplaced).toWithin
  have hwithin : code.Within (visitedCode s m code f) := (adds_visitedCode hp hplaced).toWithin
  by_cases hempty : (m.cutIn f).isEmpty = true
  · refine ⟨?_, fun i _ _ _ _ => .inr ⟨hre, .inl hempty⟩⟩
    rw [visitedCode, if_pos hempty]
    exact hg.closed.addFunc f
  · have heq : visitedCode s m code f = (m.cutIn f).fromEntry s.program f code := by
      rw [visitedCode, if_neg hempty]
    refine ⟨heq ▸ hg.closed.fromEntry hp, fun i hi hint hf hcov => ?_⟩
    rw [heq] at hcov
    rcases Cut.covers_fromEntry hp hplaced hc hi hint hcov with hcov | hstart
    · exact (hg.sound i hi hint hf hcov).imp_right fun h => ⟨h.1.mono hwithin, h.2⟩
    · exact .inr ⟨hre, .inr hstart⟩

include hp hplaced h in
theorem Entering.visit (he : Entering s m f A out seen (x :: rest) code)
    (hc : (m.cutIn f).Framed s.program) :
    Entering s m f A out (seen.insert x) ((followed s m out code x).reverse ++ rest)
      (visitedCode s m code x) := by
  have hadds : Adds s.program (· = x) code (visitedCode s m code x) := adds_visitedCode hp hplaced
  have hwithin := he.within.trans hadds.toWithin
  have hfollowed (hf : f ∈ followed s m out code x) : s.Reenters f (visitedCode s m code x) := by
    obtain ⟨-, e, hedge, hcallee, -, hcov⟩ := (mem_followed_iff hp hplaced h).1 hf
    exact ⟨e, hedge, hcallee, hcov⟩
  have hstacked (hf : f ∈ (followed s m out code x).reverse ++ rest) :
      s.Reenters f (visitedCode s m code x) := by
    rcases List.mem_append.1 hf with hf | hf
    · exact hfollowed (List.mem_reverse.1 hf)
    · exact (he.stacked (List.mem_cons_of_mem x hf)).mono hadds.toWithin
  by_cases hx : x = f
  · subst hx
    have hhas : Has s.program m x (visitedCode s m code x) := Has.visited hp
    have hgrown := he.toGrown.visited hp hplaced (he.stacked List.mem_cons_self) hc
    exact ⟨hgrown, hwithin, hstacked, fun _ => hhas, fun _ => .inr hhas⟩
  · refine ⟨he.toGrown.of_adds hplaced hadds (Ne.symm hx), hwithin, hstacked, fun hf => ?_,
      fun hre => ?_⟩
    · have hf := (IdSet.mem_insert.1 hf).resolve_left hx
      exact (he.done hf).mono hadds.toWithin
    · -- A call that leads to `f` is in the function that was visited, or was inside before.
      obtain ⟨e, hedge, hcallee, hcov⟩ := hre
      by_cases hsite : s.program.funcOf e.site = x
      · by_cases hout : f ∈ out.funcs
        · exact .inr (has_of_mem_funcs hp (hwithin.funcs f hout))
        · have hf : f ∈ followed s m out code x :=
            (mem_followed_iff hp hplaced h).2 ⟨hout, e, hedge, hcallee, hsite, hcov⟩
          exact .inl (List.mem_append_left _ (List.mem_reverse.2 hf))
      · have hlt : e.site < s.program.insts.size := h.program ▸ (h.edge_spec hedge).1
        have hcov := hadds.covers_of_not hplaced hlt hsite hcov
        rcases he.called ⟨e, hedge, hcallee, hcov⟩ with hf | hhas
        · have hf := (List.mem_cons.1 hf).resolve_left (Ne.symm hx)
          exact .inl (List.mem_append_right _ hf)
        · exact .inr (hhas.mono hadds.toWithin)

include hp hplaced h in
/-- Following the calls inside leads to code with all its calls followed. -/
theorem Grown.enter (hg : Grown s m f A out) (hf : f < s.program.funcs.size)
    (hc : (m.cutIn f).Framed s.program)
    {start : List FuncId} (hstart : f ∈ start → s.Reenters f out)
    (hcalled : s.Reenters f out → f ∈ start ∨ Has s.program m f out) :
    Trunk s m f A (s.enter m.cutIn none start out) ∧
      out.Within (s.enter m.cutIn none start out) := by
  rw [enter_eq]
  have hmem : f ∈ (start.filter fun f =>
      !(s.program.func f).isDeclaration && !out.funcs.contains f).reverse ↔ f ∈ start ∧
        (s.program.func f).isDeclaration = false ∧ f ∉ out.funcs := by
    rw [List.mem_reverse, List.mem_filter, Bool.and_eq_true, Bool.not_eq_true', Bool.not_eq_true',
      ← Bool.not_eq_true (out.funcs.contains f), TreeSet.contains_iff_mem]
  have hinit : Entering s m f A out ∅ (start.filter fun f =>
      !(s.program.func f).isDeclaration && !out.funcs.contains f).reverse out := by
    refine ⟨hg, .refl out, fun hf => hstart (hmem.1 hf).1,
      fun hf => absurd hf TreeSet.not_mem_emptyc, fun hre => ?_⟩
    rcases hcalled hre with hin | hhas
    · by_cases hout : f ∈ out.funcs
      · exact .inr (has_of_mem_funcs hp hout)
      · obtain ⟨e, hedge, hcallee, -⟩ := hre
        have hdef := h.defined e hedge
        rw [hcallee, ← h.program] at hdef
        exact .inl (hmem.2 ⟨hin, hdef, hout⟩)
    · exact .inr hhas
  obtain ⟨seen, hend⟩ : ∃ seen, Entering s m f A out seen [] (Search.explore s.program.funcs.size
      (fun code g => (visitedCode s m code g, followed s m out code g)) ∅ _ out) := by
    refine Search.explore_induction (P := Entering s m f A out) ?_ ?_ hinit
    · intro seen x rest code he hseen
      refine ⟨he.toGrown, he.within, fun hin => he.stacked (List.mem_cons_of_mem x hin), he.done,
        fun hre => ?_⟩
      rcases he.called hre with hin | hhas
      · rcases List.mem_cons.1 hin with rfl | hin
        · exact .inr (he.done (hseen hf))
        · exact .inl hin
      · exact .inr hhas
    · exact fun seen x rest code he _ _ => he.visit hp hplaced h hc
  refine ⟨⟨hend.toGrown, fun hre => ?_⟩, hend.within⟩
  exact (hend.called hre).resolve_left List.not_mem_nil

/-! ## the code of one component -/

/-- Add the members of a recursive component. -/
def withMembers (comp : Component) (T : CodeSet) : CodeSet :=
  if comp.recursive then comp.members.foldl .addFunc T else T

/-- Add the code after a site. -/
def afterSite (s : Subject) (m : JoinMatch) (T : CodeSet) (r : InstId) : CodeSet :=
  if T.funcs.contains (s.program.funcOf r) then T
  else (m.cutIn (s.program.funcOf r)).after s.program T r

/-- The code of a component before calls are followed. -/
def ownCode (s : Subject) (m : JoinMatch) (T : CodeSet) (comp : Component)
    (sites : IdSet) : CodeSet :=
  sites.toList.foldl (afterSite s m) (withMembers comp T)

theorem addTrunk_eq {excluded : Option InstId} (comp : Component) (sites : IdSet) :
    addTrunk s m excluded T (comp, sites) =
      s.enter m.cutIn excluded (comp.members.flatMap fun f => s.enteredAt f fun i =>
        excluded != some i && (ownCode s m T comp sites).covers s.program i)
        (ownCode s m T comp sites) := by
  have hfold : sites.foldl (afterSite s m) (withMembers comp T) = ownCode s m T comp sites :=
    TreeSet.foldl_eq_foldl_toList
  rw [← hfold]
  rfl

theorem foldl_addFunc (gs : List FuncId) (T : CodeSet) :
    Adds p (· ∈ gs) T (gs.foldl .addFunc T) ∧ (∀ g ∈ gs, g ∈ (gs.foldl .addFunc T).funcs) ∧
      ∀ {cut : Cut}, cut.Closed p f T → cut.Closed p f (gs.foldl .addFunc T) := by
  induction gs generalizing T with
  | nil => exact ⟨.refl T, fun g hg => absurd hg List.not_mem_nil, id⟩
  | cons x xs ih =>
    obtain ⟨hadds, hmem, hclosed⟩ := ih (T.addFunc x)
    have hfirst : Adds p (· ∈ x :: xs) T (T.addFunc x) :=
      (adds_addFunc T x).mono fun g hg => hg ▸ List.mem_cons_self
    refine ⟨hfirst.trans (hadds.mono fun g hg => List.mem_cons_of_mem x hg), fun g hg => ?_,
      fun hT => hclosed (hT.addFunc x)⟩
    rcases List.mem_cons.1 hg with rfl | hg
    · exact hadds.funcs g (IdSet.mem_insert.2 (.inl rfl))
    · exact hmem g hg

/-- What the sites of a component have to do with a function. -/
structure Serves (s : Subject) (m : JoinMatch) (f : FuncId) (A : InstId → Prop) (comp : Component)
    (sites : IdSet) : Prop where
  site : ∀ r ∈ sites, r < s.program.insts.size ∧ (s.program.op r).isTerminator = false ∧
    s.program.funcOf r ∈ comp.members
  again : comp.recursive = true → f ∈ comp.members → ∀ i, A i
  after : ∀ r ∈ sites, s.program.funcOf r = f → ∀ i, TransGen ((m.cutIn f).Step s.program) r i →
    (m.cutIn f).code.covers s.program i = false → A i

variable {comp : Component} {sites : IdSet}

include hplaced in
theorem Grown.of_members (hg : Grown s m f A T) (hserves : Serves s m f A comp sites) :
    Grown s m f A (withMembers comp T) ∧
      Adds s.program (· ∈ comp.members) T (withMembers comp T) := by
  unfold withMembers
  split
  · next hrec =>
    obtain ⟨hadds, -, hclosed⟩ := foldl_addFunc (p := s.program) (f := f) comp.members T
    refine ⟨?_, hadds⟩
    by_cases hf : f ∈ comp.members
    · exact ⟨hclosed hg.closed, fun i _ _ _ _ => .inl (hserves.again hrec hf i)⟩
    · exact hg.of_adds hplaced hadds hf
  · exact ⟨hg, .refl T⟩

include hp hplaced in
theorem Grown.of_site (hg : Grown s m f A T) (hserves : Serves s m f A comp sites)
    (hc : (m.cutIn f).Framed s.program) {r : Nat}
    (hr : r ∈ sites) : Grown s m f A (afterSite s m T r) ∧
      Adds s.program (· ∈ comp.members) T (afterSite s m T r) ∧
      (s.program.funcOf r = f → (m.cutIn f).Passes s.program (afterSite s m T r) r) := by
  obtain ⟨hlt, hterm, hmem⟩ := hserves.site r hr
  unfold afterSite
  split
  · next hin =>
    refine ⟨hg, .refl T, fun hf => hg.closed.passes hp hplaced hlt hf (covers_iff.2 (.inl ?_))⟩
    exact TreeSet.contains_iff_mem.1 hin
  · have hadds : Adds s.program (· = s.program.funcOf r) T
        ((m.cutIn (s.program.funcOf r)).after s.program T r) := Cut.adds_after hp hplaced hlt
    refine ⟨?_, hadds.mono fun g hg => hg ▸ hmem, fun hf => ?_⟩
    · by_cases hf : s.program.funcOf r = f
      · have hwithin := hadds.toWithin
        rw [hf] at hwithin ⊢
        refine ⟨(hg.closed.after hp hplaced hlt hf).1, fun i hi hint hif hcov => ?_⟩
        rcases Cut.covers_after hp hplaced hc hlt hterm hi hint hcov with hcov | ⟨hpath, hcut⟩
        · exact (hg.sound i hi hint hif hcov).imp_right fun h => ⟨h.1.mono hwithin, h.2⟩
        · exact .inl (hserves.after r hr hf i hpath hcut)
      · exact hg.of_adds hplaced hadds (Ne.symm hf)
    · rw [hf]
      exact (hg.closed.after hp hplaced hlt hf).2

include hp hplaced in
theorem Grown.of_sites (hg : Grown s m f A T) (hserves : Serves s m f A comp sites)
    (hc : (m.cutIn f).Framed s.program)
    (rs : List InstId) (hrs : ∀ r ∈ rs, r ∈ sites) : Grown s m f A (rs.foldl (afterSite s m) T) ∧
      Adds s.program (· ∈ comp.members) T (rs.foldl (afterSite s m) T) ∧
      ∀ r ∈ rs, s.program.funcOf r = f →
        (m.cutIn f).Passes s.program (rs.foldl (afterSite s m) T) r := by
  induction rs generalizing T with
  | nil => exact ⟨hg, .refl T, fun r hr => absurd hr List.not_mem_nil⟩
  | cons x xs ih =>
    obtain ⟨hgrown, hadds, hpass⟩ := hg.of_site hp hplaced hserves hc (hrs x List.mem_cons_self)
    obtain ⟨hgrown', hadds', hpass'⟩ := ih hgrown fun r hr => hrs r (List.mem_cons_of_mem x hr)
    refine ⟨hgrown', hadds.trans hadds', fun r hr hf => ?_⟩
    rcases List.mem_cons.1 hr with rfl | hr
    · exact (hpass hf).mono hadds'.toWithin
    · exact hpass' r hr hf

include hp hplaced h in
/-- The code of one component keeps the invariant and adds what runs after its sites. -/
theorem Trunk.addTrunk (ht : Trunk s m f A T) (hf : f < s.program.funcs.size)
    (hserves : Serves s m f A comp sites)
    (hc : (m.cutIn f).Framed s.program) :
    Trunk s m f A (addTrunk s m none T (comp, sites)) ∧
      T.Within (addTrunk s m none T (comp, sites)) ∧
      (∀ r ∈ sites, s.program.funcOf r = f →
        (m.cutIn f).Passes s.program (addTrunk s m none T (comp, sites)) r) ∧
      (comp.recursive = true →
        ∀ g ∈ comp.members, g ∈ (addTrunk s m none T (comp, sites)).funcs) := by
  obtain ⟨hgrown, hmembers⟩ := ht.toGrown.of_members hplaced hserves
  obtain ⟨hgrown, hsites, hpass⟩ := hgrown.of_sites hp hplaced hserves hc sites.toList
    fun r hr => TreeSet.mem_toList.1 hr
  change Grown s m f A (ownCode s m T comp sites) at hgrown
  change Adds s.program _ _ (ownCode s m T comp sites) at hsites
  have hadds := hmembers.trans hsites
  rw [addTrunk_eq]
  have hstart : f ∈ (comp.members.flatMap fun f => s.enteredAt f fun i =>
      (none : Option InstId) != some i && (ownCode s m T comp sites).covers s.program i) ↔
      ∃ e ∈ s.calls.edges, e.callee = f ∧ s.program.funcOf e.site ∈ comp.members ∧
        (ownCode s m T comp sites).covers s.program e.site = true := by
    simp only [List.mem_flatMap, mem_enteredAt_iff hp hplaced h]
    constructor
    · rintro ⟨g, hg, e, he, hcallee, rfl, hcov⟩
      exact ⟨e, he, hcallee, hg, by simpa using hcov⟩
    · rintro ⟨e, he, hcallee, hg, hcov⟩
      exact ⟨_, hg, e, he, hcallee, rfl, by simpa using hcov⟩
  obtain ⟨htrunk, hwithin⟩ := hgrown.enter hp hplaced h hf hc
    (fun hin => by
      obtain ⟨e, he, hcallee, -, hcov⟩ := hstart.1 hin
      exact ⟨e, he, hcallee, hcov⟩)
    (fun hre => by
      -- Calls in the component are followed now, and the others were followed before.
      obtain ⟨e, he, hcallee, hcov⟩ := hre
      by_cases hmem : s.program.funcOf e.site ∈ comp.members
      · exact .inl (hstart.2 ⟨e, he, hcallee, hmem, hcov⟩)
      · have hlt : e.site < s.program.insts.size := h.program ▸ (h.edge_spec he).1
        have hcov := hadds.covers_of_not hplaced hlt hmem hcov
        exact .inr ((ht.entered ⟨e, he, hcallee, hcov⟩).mono hadds.toWithin))
  refine ⟨htrunk, hadds.toWithin.trans hwithin, fun r hr hrf => ?_, fun hrec g hg => ?_⟩
  · exact (hpass r (TreeSet.mem_toList.2 hr) hrf).mono hwithin
  · refine hwithin.funcs g (hsites.funcs g ?_)
    rw [withMembers, if_pos hrec]
    exact (foldl_addFunc (p := s.program) (f := f) comp.members T).2.1 g hg

/-! ## the whole trunk -/

include hp hplaced h in
theorem trunkOf_spec (hf : f < s.program.funcs.size)
    (hc : (m.cutIn f).Framed s.program)
    {L : List (Component × IdSet)} (hL : ∀ x ∈ L, Serves s m f A x.1 x.2) :
    Trunk s m f A (trunkOf s m L none) ∧ ∀ x ∈ L,
      (∀ r ∈ x.2, s.program.funcOf r = f →
        (m.cutIn f).Passes s.program (trunkOf s m L none) r) ∧
      (x.1.recursive = true → ∀ g ∈ x.1.members, g ∈ (trunkOf s m L none).funcs) := by
  have hfold (T : CodeSet) (ht : Trunk s m f A T) :
      Trunk s m f A (L.foldl (Parallelism.addTrunk s m none) T) ∧
        T.Within (L.foldl (Parallelism.addTrunk s m none) T) ∧ ∀ x ∈ L,
        (∀ r ∈ x.2, s.program.funcOf r = f →
          (m.cutIn f).Passes s.program (L.foldl (Parallelism.addTrunk s m none) T) r) ∧
        (x.1.recursive = true → ∀ g ∈ x.1.members,
          g ∈ (L.foldl (Parallelism.addTrunk s m none) T).funcs) := by
    induction L generalizing T with
    | nil => exact ⟨ht, .refl T, fun x hx => absurd hx List.not_mem_nil⟩
    | cons y ys ih =>
      obtain ⟨ht', hwithin, hpass, hrec⟩ := ht.addTrunk hp hplaced h hf (hL y List.mem_cons_self) hc
      obtain ⟨ht'', hwithin', hrest⟩ := ih (fun x hx => hL x (List.mem_cons_of_mem y hx)) _ ht'
      refine ⟨ht'', hwithin.trans hwithin', fun x hx => ?_⟩
      rcases List.mem_cons.1 hx with rfl | hx
      · exact ⟨fun r hr hrf => (hpass r hr hrf).mono hwithin',
          fun hr g hg => hwithin'.funcs g (hrec hr g hg)⟩
      · exact hrest x hx
  obtain ⟨ht, -, hall⟩ := hfold ∅ trunk_empty
  exact ⟨ht, hall⟩

include hp hplaced h in
/-- What the trunk covers of a function: all of it when its component may run again, what open
steps from the sites in it lead to, and what runs when it is entered by a call of the trunk. -/
theorem covers_trunkOf_iff (hf : f < s.program.funcs.size)
    (hc : (m.cutIn f).Framed s.program)
    (hentry : ∀ b, (s.program.func f).entry = some b →
      (m.cutIn f).code.coversBlock s.program b = false)
    {L : List (Component × IdSet)} (hL : ∀ x ∈ L, ∀ r ∈ x.2, r < s.program.insts.size ∧
      (s.program.op r).isTerminator = false ∧ s.program.funcOf r ∈ x.1.members) {i : Nat}
    (hi : i < s.program.insts.size) (hint : s.program.isInteresting i = true)
    (hif : s.program.funcOf i = f) : (trunkOf s m L none).covers s.program i = true ↔
      ((∃ x ∈ L, x.1.recursive = true ∧ f ∈ x.1.members) ∨
        ∃ x ∈ L, ∃ r ∈ x.2, s.program.funcOf r = f ∧ TransGen ((m.cutIn f).Step s.program) r i ∧
          (m.cutIn f).code.covers s.program i = false) ∨
      s.Reenters f (trunkOf s m L none) ∧ FromStart s.program m f i := by
  obtain ⟨ht, hall⟩ := trunkOf_spec hp hplaced h (m := m) hf hc (L := L) (A := fun i =>
    (∃ x ∈ L, x.1.recursive = true ∧ f ∈ x.1.members) ∨
    ∃ x ∈ L, ∃ r ∈ x.2, s.program.funcOf r = f ∧ TransGen ((m.cutIn f).Step s.program) r i ∧
      (m.cutIn f).code.covers s.program i = false) fun x hx =>
    ⟨hL x hx, fun hrec hmem _ => .inl ⟨x, hx, hrec, hmem⟩,
      fun r hr hrf i hpath hcut => .inr ⟨x, hx, r, hr, hrf, hpath, hcut⟩⟩
  constructor
  · exact fun hcov => ht.sound i hi hint hif hcov
  · rintro ((⟨x, hx, hrec, hmem⟩ | ⟨x, hx, r, hr, hrf, hpath, hcut⟩) | ⟨hre, hstart⟩)
    · exact covers_iff.2 (.inl (hif ▸ (hall x hx).2 hrec f hmem))
    · obtain ⟨hlt, hterm, -⟩ := hL x hx r hr
      exact ht.closed.covers_of_transGen hp hplaced hlt hterm hrf
        ((hall x hx).1 r hr hrf) hpath hi hint
        hcut
    · have hhas := ht.entered hre
      rcases hstart with hempty | ⟨⟨k, hk, hpath⟩, hcut⟩
      · exact covers_iff.2 (.inl (hif ▸ hhas.whole hempty))
      · obtain ⟨b, hb, hfirst⟩ := Option.bind_eq_some_iff.1 hk
        have hbf := (Cut.entry_spec hp hb).2
        have hahead :=
          ht.closed.ahead_of_hasBlock hp hplaced hbf (hhas.entry b hb) (hentry b hb) hfirst
        have hkf : (s.program.block (s.program.blockOf k)).func = f := by
          rw [(Program.firstInst_spec hp.wellFormed hfirst).2.1, hbf]
        exact ht.closed.covers_of_path hp hplaced hkf hahead hpath hi hint hcut

end

end Parallelism

end DataRace
