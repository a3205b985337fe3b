import DataRace.Proofs.Barrier.Sites
import DataRace.Proofs.Barrier.Spread
import DataRace.Proofs.Program.Script

/-!
# DataRace.Proofs.Barrier.Around

What the sides of a barrier hold of a function that waits at it.

The sides are made by one visit of each function.  A visit adds the function as
a whole, if all its calls are on that side, and then what its waits spread to;
other visits add nothing of the function.

* `exists_sides_place`, `MadeBy` — what one visit adds;
* `MadeBy.covers_iff` — a side in the end;
* `covers_around_iff` — which code around a wait is on a side;
* `covers_of_outermost` — all of it, if the block of the wait dominates no other
  block of an earlier one;
* `not_forall_covers_around` — code around a wait that no side covers.
-/

namespace DataRace

open Std

namespace Barriers

/-! ## all visits -/

/-- The waits for a barrier in a table of sites, by their numbers. -/
def waitSites (m : IdMap IdSet) (x : ValueId) : List InstId :=
  (m.toList.filter (·.2.contains x)).map (·.1)

section waitSites

variable {m : IdMap IdSet} {x : ValueId} {i : InstId}

theorem mem_waitSites : i ∈ waitSites m x ↔ x ∈ m.getD i ∅ := by
  rw [waitSites, IdMap.mem_getD_iff]
  simp [TreeMap.mem_toList_iff_getElem?_eq_some, TreeSet.contains_iff_mem]

theorem ascending_waitSites : (waitSites m x).Pairwise (· < ·) := by
  have hasc : (m.toList.map (·.1)).Pairwise (· < ·) := by
    refine List.pairwise_map.2 (TreeMap.ordered_keys_toList.imp fun hlt => ?_)
    exact Nat.compare_eq_lt.1 hlt
  exact hasc.sublist (List.filter_sublist.map _)

/-- Among the waits for all barriers are those for one. -/
theorem waitSites_eq :
    ((m.toList.flatMap fun e => e.2.toList.map (e.1, ·)).filter (·.2 == x)).map (·.1) =
      waitSites m x := by
  unfold waitSites
  induction m.toList with
  | nil => rfl
  | cons e es ih =>
    have hone : ((e.2.toList.map (e.1, ·)).filter (·.2 == x)).map (·.1) =
        if e.2.contains x then [e.1] else [] := by
      rw [List.filter_map, List.map_map]
      change (e.2.toList.filter (· == x)).map (fun _ => e.1) = _
      rw [List.filter_beq, List.map_replicate]
      by_cases hx : x ∈ e.2
      · rw [List.count_eq_one_of_mem (IdSet.nodup_toList e.2) (TreeSet.mem_toList.2 hx),
          if_pos (TreeSet.contains_iff_mem.2 hx)]
        rfl
      · rw [List.count_eq_zero_of_not_mem (mt TreeSet.mem_toList.1 hx),
          if_neg (mt TreeSet.contains_iff_mem.1 hx)]
        rfl
    rw [List.flatMap_cons, List.filter_append, List.map_append, ih, hone, List.filter_cons]
    cases e.2.contains x <;> rfl

end waitSites

/-- A function is added as a whole, or nothing is. -/
structure AddsFunc (f : FuncId) (a b : CodeSet) : Prop where
  blocks : b.blocks = a.blocks
  insts : b.insts = a.insts
  funcs : ∀ g ∈ a.funcs, g ∈ b.funcs
  func : ∀ g ∈ b.funcs, g ∈ a.funcs ∨ g = f

namespace AddsFunc

variable {p : Program} {f : FuncId} {a b d : CodeSet}

theorem refl (a : CodeSet) : AddsFunc f a a := ⟨rfl, rfl, fun _ h => h, fun _ => .inl⟩

theorem trans (hab : AddsFunc f a b) (hbd : AddsFunc f b d) : AddsFunc f a d where
  blocks := hbd.blocks.trans hab.blocks
  insts := hbd.insts.trans hab.insts
  funcs g hg := hbd.funcs g (hab.funcs g hg)
  func g hg := (hbd.func g hg).elim (hab.func g) .inr

theorem addFunc (a : CodeSet) (f : FuncId) : AddsFunc f a (a.addFunc f) where
  blocks := rfl
  insts := rfl
  funcs _ hg := IdSet.mem_insert.2 (.inr hg)
  func _ hg := (IdSet.mem_insert.1 hg).elim (fun h => .inr h.symm) .inl

theorem foldl (vs : List ValueId) (a : CodeSet) :
    AddsFunc f a (vs.foldl (fun out _ => out.addFunc f) a) :=
  List.foldlRecOn (motive := AddsFunc f a) _ _ (.refl a) fun out hout _ _ =>
    hout.trans (.addFunc out f)

theorem adds (h : AddsFunc f a b) : CodeSet.Adds p (· = f) a b where
  funcs := h.funcs
  blocks _ hx := h.blocks ▸ hx
  insts _ hi := h.insts ▸ hi
  func := h.func
  block _ hx := .inl (h.blocks ▸ hx)
  inst _ hi := .inl (h.insts ▸ hi)

end AddsFunc

section place

variable {s : Subject} {b : Barriers} {f : FuncId} {x : ValueId}

theorem foldl_sides {α : Type} {F G : CodeSet → α → CodeSet} (as : List α) (y : BarrierSides) :
    as.foldl (fun y a => ({ before := F y.before a, after := G y.after a } : BarrierSides)) y =
      { before := as.foldl F y.before, after := as.foldl G y.after } := by
  induction as generalizing y with
  | nil => rfl
  | cons a as ih => exact ih _

/-- The visit of a function adds it to the sides as a whole, or not, and then what its waits add. -/
theorem exists_sides_place (s : Subject) (b : Barriers) (f : FuncId) (x : ValueId) :
    ∃ y : BarrierSides, AddsFunc f (b.sides.getD x {}).before y.before ∧
      AddsFunc f (b.sides.getD x {}).after y.after ∧
      (place s b f).sides.getD x {} =
        { before := (waitSites (b.sites.getD f ∅) x).foldl (addPostDominated s) y.before
          after := (waitSites (b.sites.getD f ∅) x).foldl (addDominated s) y.after } := by
  unfold place
  dsimp only
  rw [getD_foldl_update Prod.snd, sites_foldl_update, sites_foldl_update,
    getD_foldl_update (fun y => y), getD_foldl_update (fun y => y), ← waitSites_eq]
  rw [foldl_sides (F := fun out (a : InstId × ValueId) => addPostDominated s out a.1)
    (G := fun out a => addDominated s out a.1)]
  rw [foldl_sides (F := fun out _ => out) (G := fun out _ => out.addFunc f),
    foldl_sides (F := fun out _ => out.addFunc f) (G := fun out _ => out)]
  simp only [List.foldl_map, List.foldl_fixed]
  exact ⟨{ before := _, after := _ }, .foldl _ _, .foldl _ _, rfl⟩

end place

/-! ## one side in the end -/

/-- How visits make one side of a barrier: they add a function as a whole, or not, and then what its
waits add. -/
structure MadeBy (s : Subject) (x : ValueId) (side : BarrierSides → CodeSet)
    (add : CodeSet → InstId → CodeSet) : Prop where
  empty : side {} = ∅
  place : ∀ b f, ∃ code, AddsFunc f (side (b.sides.getD x {})) code ∧
    side ((Barriers.place s b f).sides.getD x {}) = (waitSites (b.sites.getD f ∅) x).foldl add code

theorem madeBy_before (s : Subject) (x : ValueId) : MadeBy s x (·.before) (addPostDominated s) where
  empty := rfl
  place b f := by
    obtain ⟨y, hbefore, -, heq⟩ := exists_sides_place s b f x
    exact ⟨y.before, hbefore, congrArg BarrierSides.before heq⟩

theorem madeBy_after (s : Subject) (x : ValueId) : MadeBy s x (·.after) (addDominated s) where
  empty := rfl
  place b f := by
    obtain ⟨y, -, hafter, heq⟩ := exists_sides_place s b f x
    exact ⟨y.after, hafter, congrArg BarrierSides.after heq⟩

namespace MadeBy

variable {s : Subject} {p : Program} {c : Config} {x : ValueId} {side : BarrierSides → CodeSet}
  {add : CodeSet → InstId → CodeSet} {graph : FuncId → FlowGraph} {near : InstId → InstId → Prop}
  {b : Barriers} {f : FuncId} {i : InstId}

section

variable (hmade : MadeBy s x side add) (hadd : ∀ f, Spreads s.program f (graph f) near add)
  (hp : s.program.Finished) (hplaced : s.program.Placed)

include hmade hadd hp hplaced

/-- The visit of a function adds code of that function only. -/
theorem adds_place (hb : Grounded s b) : CodeSet.Adds s.program (· = f) (side (b.sides.getD x {}))
    (side ((Barriers.place s b f).sides.getD x {})) := by
  obtain ⟨code, hcode, heq⟩ := hmade.place b f
  rw [heq]
  refine hcode.adds.trans (List.foldlRecOn (motive := CodeSet.Adds s.program (· = f) code) _ _
    (.refl code) fun out hout w hw => hout.trans ((hadd f).adds hp hplaced ?_))
  exact (hb.sites (mem_waitSites.1 hw)).2.1

/-- The visits of other functions add nothing of a function. -/
theorem adds_foldl {fs : List FuncId} (hb : Grounded s b) (hf : f ∉ fs) :
    Grounded s (fs.foldl (Barriers.place s) b) ∧
      CodeSet.Adds s.program (· ≠ f) (side (b.sides.getD x {}))
        (side ((fs.foldl (Barriers.place s) b).sides.getD x {})) := by
  induction fs generalizing b with
  | nil => exact ⟨hb, .refl _⟩
  | cons g fs ih =>
    have hne : g ≠ f := fun heq => hf (heq ▸ List.mem_cons_self)
    obtain ⟨hground, hrest⟩ := ih hb.place fun hmem => hf (List.mem_cons_of_mem g hmem)
    have hone := (hmade.adds_place hadd hp hplaced hb (f := g)).mono fun k hk => hk.trans_ne hne
    rw [List.foldl_cons]
    exact ⟨hground, hone.trans hrest⟩

end

/-- What a side of a barrier holds of a function that waits at it. -/
theorem covers_iff (hmade : MadeBy s x side add)
    (hadd : ∀ f, Spreads s.program f (graph f) near add) (hp : s.program.Finished)
    (hplaced : s.program.Placed) (h : s.Prepared p c) (hf : s.Visits f)
    (hi : i ∈ s.program.funcInsts f) (hint : s.program.isInteresting i = true) :
    (side ((analyze s).sides.getD x {})).covers s.program i = true ↔
      f ∈ (side ((analyze s).sides.getD x {})).funcs ∨
        Around s.program (graph f) near (WaitsIn s f x) i := by
  obtain ⟨pre, post, hsplit⟩ := List.append_of_mem (mem_visits_iff.2 hf)
  have hnodup := nodup_visits h
  rw [hsplit, List.nodup_append, List.nodup_cons] at hnodup
  obtain ⟨-, ⟨hpost, -⟩, hdisjoint⟩ := hnodup
  have hpre : f ∉ pre := fun hmem => hdisjoint f hmem f List.mem_cons_self rfl
  have hwaits (v : InstId) : WaitsIn s f x v ↔
      v ∈ waitSites
        ((pre.foldl (Barriers.place s) (s.bottomUp.foldl (summarise s) {})).sites.getD f ∅)
        x := by
    rw [mem_waitSites, sites_foldl_place, WaitsIn, analyze_eq_foldl, sites_foldl_place]
  rw [analyze_eq_foldl, hsplit, List.foldl_append, List.foldl_cons]
  generalize hb : pre.foldl (Barriers.place s) (s.bottomUp.foldl (summarise s) {}) = b at hwaits ⊢
  obtain ⟨hground, hold⟩ := hmade.adds_foldl hadd hp hplaced (grounded_summarised s) hpre
  rw [hb] at hground hold
  obtain ⟨-, hlater⟩ := hmade.adds_foldl hadd hp hplaced hground.place hpost
  rw [sides_summarised, TreeMap.getD_emptyc, hmade.empty] at hold
  obtain ⟨code, hcode, hplace⟩ := hmade.place b f
  obtain ⟨hlt, hfunc⟩ := (hplaced.mem_funcInsts_iff hp.wellFormed).1 hi
  -- When its visit begins, no code of the function is there yet.
  have hempty (hnot : f ∉ code.funcs) :
      Holds s.program f (graph f) near (WaitsIn s f x) (fun _ => False) code := by
    refine ⟨hnot, fun {c} hc => ?_, fun {k} hk hmem => ?_, fun h => h.elim⟩
    · simp only [false_and, exists_false, iff_false]
      rw [hcode.blocks]
      intro hmem
      have hother := (hold.block c hmem).resolve_left TreeSet.not_mem_emptyc
      exact hother (hp.wellFormed.mem_blocks_iff.1 hc).2
    · rw [hcode.insts] at hmem
      have hother := (hold.inst k hmem).resolve_left TreeSet.not_mem_emptyc
      exact absurd ((hplaced.mem_funcInsts_iff hp.wellFormed).1 hk).2 hother
  have hvisit := (hadd f).covers_foldl_iff hp hplaced hempty
    (fun w hw => (hground.sites (mem_waitSites.1 hw)).2.1) ascending_waitSites hwaits hi hint
  have hsame : f ∈ (side
    ((post.foldl (Barriers.place s) (Barriers.place s b f)).sides.getD x {})).funcs ↔
      f ∈ code.funcs := by
    rw [← (hadd f).funcs_foldl code (waitSites (b.sites.getD f ∅) x), ← hplace]
    exact ⟨fun hmem => (hlater.func f hmem).resolve_right fun hne => hne rfl, hlater.funcs f⟩
  rw [hsame, ← hvisit, ← hplace]
  exact ⟨hlater.covers_of_not hplaced hlt (by rw [hfunc]; exact fun hne => hne rfl),
    hlater.toWithin.covers⟩

end MadeBy

/-! ## around a wait -/

/-- A load, store or call beside a wait of its function, in a block that control reaches. -/
structure BesideWait (s : Subject) (f : FuncId) (x : ValueId) (w i : InstId) : Prop where
  wait : WaitsIn s f x w
  mem : i ∈ s.program.funcInsts f
  interesting : s.program.isInteresting i = true
  ne : i ≠ w
  reached : s.program.blockOf i ∈ (FlowGraph.forward s.program f).reached

instance (s : Subject) (f : FuncId) (x : ValueId) (w i : InstId) :
    Decidable (BesideWait s f x w i) :=
  decidable_of_iff (WaitsIn s f x w ∧ i ∈ s.program.funcInsts f ∧ s.program.isInteresting i = true ∧
      i ≠ w ∧ s.program.blockOf i ∈ (FlowGraph.forward s.program f).reached)
    ⟨fun h => ⟨h.1, h.2.1, h.2.2.1, h.2.2.2.1, h.2.2.2.2⟩,
      fun h => ⟨h.wait, h.mem, h.interesting, h.ne, h.reached⟩⟩

namespace BesideWait

variable {s : Subject} {p : Program} {c : Config} {f : FuncId} {x : ValueId} {w i : InstId}

theorem sides_eq (h : BesideWait s f x w i) :
    (analyze s).sides[x]? = some ((analyze s).sides.getD x {}) := by
  obtain ⟨y, hy⟩ := IdMap.mem_iff_exists_getElem?.1 (mem_sides_iff.2 ⟨f, w, h.wait⟩)
  rw [TreeMap.getD_eq_getD_getElem?, hy, Option.getD_some]

section

variable (hp : s.program.Finished) (hplaced : s.program.Placed) (hs : s.Prepared p c)
  (h : BesideWait s f x w i)

include hp hplaced h

theorem place : w < s.program.insts.size ∧ s.program.funcOf w = f :=
  (hplaced.mem_funcInsts_iff hp.wellFormed).1 h.wait.spec.2.1

theorem pos_ne (hblock : s.program.blockOf w = s.program.blockOf i) :
    (s.program.inst w).pos ≠ (s.program.inst i).pos := by
  have hi := ((hplaced.mem_funcInsts_iff hp.wellFormed).1 h.mem).1
  exact fun heq => h.ne (hp.wellFormed.eq_of_pos (h.place hp hplaced).1 hi hblock heq).symm

include hs

/-- What a wait dominates is behind it in its block or in another block that its block dominates. -/
theorem earlier_or_dom (hdom : s.dominates w i = true) : s.program.Earlier w i ∨
    s.program.blockOf i ≠ s.program.blockOf w ∧
      (FlowGraph.forward s.program f).Dom (s.program.blockOf w) (s.program.blockOf i) := by
  obtain ⟨hw, hfunc⟩ := h.place hp hplaced
  obtain ⟨-, hplace⟩ := (Subject.dominates_iff hp hs hw).1 hdom
  rw [hfunc] at hplace
  split at hplace
  · next hblock => exact .inl ⟨hblock, Nat.lt_of_le_of_ne hplace (h.pos_ne hp hplaced hblock)⟩
  · next hblock => exact .inr ⟨Ne.symm hblock, hplace⟩

/-- What a wait post-dominates is in front of it or in another block that its block
post-dominates. -/
theorem later_or_dom (hdom : s.postDominates w i = true) : s.program.Earlier i w ∨
    s.program.blockOf i ≠ s.program.blockOf w ∧
      (FlowGraph.backward s.program f).Dom (s.program.blockOf w) (s.program.blockOf i) := by
  obtain ⟨hw, hfunc⟩ := h.place hp hplaced
  obtain ⟨-, hplace⟩ := (Subject.postDominates_iff hp hs hw).1 hdom
  rw [hfunc] at hplace
  split at hplace
  · next hblock =>
    have hne := (h.pos_ne hp hplaced hblock).symm
    exact .inl ⟨hblock.symm, Nat.lt_of_le_of_ne hplace hne⟩
  · next hblock => exact .inr ⟨Ne.symm hblock, hplace⟩

end

end BesideWait

section around

variable {s : Subject} {p : Program} {c : Config} {f : FuncId} {x : ValueId} {w i : InstId}

/-- The two sides of a barrier that a function waits at, as far as they hold code of the
function. -/
theorem exists_sides_iff (hp : p.Finished) (hplaced : p.Placed) (hs : s.Prepared p c)
    (h : BesideWait s f x w i) : ∃ y, (analyze s).sides[x]? = some y ∧
      (y.after.covers p i = true ↔
        f ∈ y.after.funcs ∨ Around p (.forward p f) p.Earlier (WaitsIn s f x) i) ∧
      (y.before.covers p i = true ↔
        f ∈ y.before.funcs ∨ Around p (.backward p f) (fun w i => p.Earlier i w)
        (WaitsIn s f x) i) := by
  obtain rfl := hs.program
  refine ⟨_, h.sides_eq, ?_, ?_⟩
  · exact (madeBy_after s x).covers_iff (fun f => spreads_dominated hp hplaced hs f) hp hplaced hs
      h.wait.spec.1 h.mem h.interesting
  · exact (madeBy_before s x).covers_iff (fun f => spreads_postDominated hp hplaced hs f)
      hp hplaced hs h.wait.spec.1 h.mem h.interesting

/-- **Code around a wait**: what a wait dominates is on the after side of its barrier, and what it
post-dominates on the before side, exactly if the function is there as a whole or the code is next
to a wait of the function or in a block that one spreads to. -/
theorem covers_around_iff (hp : p.Finished) (hplaced : p.Placed) (hs : Subject.prepare p c = .ok s)
    (h : BesideWait s f x w i) : ∃ y, (analyze s).sides[x]? = some y ∧
      ((s.dominates w i = true → y.after.covers p i = true) ↔ (s.dominates w i = true →
        f ∈ y.after.funcs ∨ Around p (.forward p f) p.Earlier (WaitsIn s f x) i)) ∧
      ((s.postDominates w i = true → y.before.covers p i = true) ↔ (s.postDominates w i = true →
        f ∈ y.before.funcs ∨
          Around p (.backward p f) (fun w i => p.Earlier i w) (WaitsIn s f x) i)) := by
  obtain ⟨y, hy, hafter, hbefore⟩ := exists_sides_iff hp hplaced (Subject.prepared hs) h
  exact ⟨y, hy, imp_congr_right fun _ => hafter, imp_congr_right fun _ => hbefore⟩

/-- A read decides which branch waits; both branches come to a third wait, and a write follows. -/
def waitAfterBranches : Program := Builder.ofScript
  [.global "b" 0, .global "g" 0, .declare "main" 0, .declare "barrier_wait" 1, .const 0, .const 1,
    .body 0, .block 0, .block 0, .block 0, .block 0, .block 0,
    .append 0 0 (.load 1), .append 0 0 (.branch 7 1 3),
    .append 0 1 (.jump 2), .append 0 2 (.call (.direct 1) [0]), .append 0 2 (.jump 5),
    .append 0 3 (.jump 4), .append 0 4 (.call (.direct 1) [0]), .append 0 4 (.jump 5),
    .append 0 5 (.call (.direct 1) [0]), .append 0 5 (.store 1 6), .append 0 5 (.ret none)]

/-- The write behind the third wait is after it. -/
theorem covers_around_waitAfterBranches : ∃ s y, Subject.prepare waitAfterBranches {} = .ok s ∧
    (analyze s).sides[0]? = some y ∧ y.after.covers waitAfterBranches 9 = true := by
  have heval : (Subject.prepare waitAfterBranches {}).toOption.any (fun s =>
      decide (BesideWait s 0 0 8 9) && s.dominates 8 9) = true := by
    decide +kernel
  obtain ⟨s, hs, heval⟩ := exists_of_any_toOption heval
  obtain ⟨hbeside, hdom⟩ := Bool.and_eq_true_iff.1 heval
  have hbeside := of_decide_eq_true hbeside
  have hplaced : waitAfterBranches.Placed := by
    unfold Program.Placed
    decide +kernel
  obtain ⟨y, hy, hafter, -⟩ :=
    covers_around_iff (Builder.finished_ofScript (by decide +kernel)) hplaced hs hbeside
  have hnear : waitAfterBranches.Earlier 8 9 := ⟨by decide +kernel, by decide +kernel⟩
  exact ⟨s, y, hs, hy, hafter.2 (fun _ => .inr ⟨8, hbeside.wait, .inl hnear⟩) hdom⟩

/-- A write and a wait, then one of two branches that wait once more, and a read where they meet.
The first wait has the largest number. -/
def waitBeforeBranches : Program := Builder.ofScript
  [.global "b" 0, .global "g" 0, .declare "main" 0, .declare "barrier_wait" 1, .const 0, .const 1,
    .body 0, .block 0, .block 0, .block 0, .block 0, .block 0,
    .append 0 1 (.call (.direct 1) [0]), .append 0 1 (.jump 2), .append 0 2 (.jump 5),
    .append 0 3 (.call (.direct 1) [0]), .append 0 3 (.jump 4), .append 0 4 (.jump 5),
    .append 0 5 (.load 1), .append 0 5 (.ret none),
    .append 0 0 (.store 1 6), .append 0 0 (.call (.direct 1) [0]), .append 0 0 (.load 1),
    .append 0 0 (.branch 11 1 3)]

/-- The read where the branches meet is not on the after side of the wait that dominates it, and the
read before the branches not on the before side of the wait that post-dominates it. -/
theorem not_forall_covers_around :
    (¬∀ (p : Program) (c : Config) (s : Subject) (f : FuncId) (x : ValueId) (w i : InstId),
      p.Finished → Subject.prepare p c = .ok s → BesideWait s f x w i → s.dominates w i = true →
        ∃ y, (analyze s).sides[x]? = some y ∧ y.after.covers p i = true) ∧
    ¬∀ (p : Program) (c : Config) (s : Subject) (f : FuncId) (x : ValueId) (w i : InstId),
      p.Finished → Subject.prepare p c = .ok s → BesideWait s f x w i → s.postDominates w i = true →
        ∃ y, (analyze s).sides[x]? = some y ∧ y.before.covers p i = true := by
  constructor
  · intro hall
    have heval : (Subject.prepare waitBeforeBranches {}).toOption.any (fun s =>
        decide (BesideWait s 0 0 9 6) && s.dominates 9 6 &&
          (analyze s).sides[0]?.all fun y => !y.after.covers waitBeforeBranches 6) = true := by
      decide +kernel
    obtain ⟨s, hs, heval⟩ := exists_of_any_toOption heval
    simp only [Bool.and_eq_true, decide_eq_true_eq] at heval
    obtain ⟨⟨hbeside, hdom⟩, hnone⟩ := heval
    have hfin : waitBeforeBranches.Finished := Builder.finished_ofScript (by decide +kernel)
    obtain ⟨y, hy, hcovers⟩ := hall _ _ s 0 0 9 6 hfin hs hbeside hdom
    rw [hy, Option.all_some, hcovers] at hnone
    cases hnone
  · intro hall
    have heval : (Subject.prepare waitAfterBranches {}).toOption.any (fun s =>
        decide (BesideWait s 0 0 8 0) && s.postDominates 8 0 &&
          (analyze s).sides[0]?.all fun y => !y.before.covers waitAfterBranches 0) = true := by
      decide +kernel
    obtain ⟨s, hs, heval⟩ := exists_of_any_toOption heval
    simp only [Bool.and_eq_true, decide_eq_true_eq] at heval
    obtain ⟨⟨hbeside, hdom⟩, hnone⟩ := heval
    have hfin : waitAfterBranches.Finished := Builder.finished_ofScript (by decide +kernel)
    obtain ⟨y, hy, hcovers⟩ := hall _ _ s 0 0 8 0 hfin hs hbeside hdom
    rw [hy, Option.all_some, hcovers] at hnone
    cases hnone

/-- Nothing around a wait is missing in its own block, and nothing at all if its block dominates no
other block of a wait with a smaller number. -/
theorem covers_of_outermost (hp : p.Finished) (hplaced : p.Placed) (hs : s.Prepared p c)
    (h : BesideWait s f x w i) : ∃ y, (analyze s).sides[x]? = some y ∧
      (s.dominates w i = true →
        p.blockOf i = p.blockOf w ∨ Outermost p (.forward p f) (WaitsIn s f x) w →
        y.after.covers p i = true) ∧
      (s.postDominates w i = true →
        p.blockOf i = p.blockOf w ∨ Outermost p (.backward p f) (WaitsIn s f x) w →
        y.before.covers p i = true) := by
  obtain ⟨y, hy, hafter, hbefore⟩ := exists_sides_iff hp hplaced hs h
  obtain rfl := hs.program
  refine ⟨y, hy, fun hdom hfirst => hafter.2 (.inr ?_), fun hdom hfirst => hbefore.2 (.inr ?_)⟩
  · exact around_of_outermost h.wait (h.earlier_or_dom hp hplaced hs hdom) hfirst
  · exact around_of_outermost h.wait (h.later_or_dom hp hplaced hs hdom) hfirst

end around

end Barriers

end DataRace
