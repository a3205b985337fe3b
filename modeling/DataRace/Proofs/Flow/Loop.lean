import DataRace.Flow.Loop
import DataRace.Proofs.Flow.DomTree
import Mathlib.Data.List.Induction

/-!
# DataRace.Proofs.Flow.Loop

Loops are nested or apart.

The header of a natural loop dominates its blocks, and apart from the header
the loop holds with a block every way there from the entry (`Loop.Natural`).
Of two loops that share a block, one header dominates the other, and its loop
holds the other as a whole.  So the smallest loop around a block lies in every
loop around it.

* `Natural.subset_of_dom`, `Natural.subset_of_size_le` — how loops are nested;
* `natural_ofHeader` — the blocks that reach a latch around the header make a loop;
* `Loops.exists_loopOf` — the loop recorded for a block is the smallest around it.
-/

namespace DataRace

open Std

theorem single?_eq_some_iff {α : Type} {xs : List α} {a : α} : single? xs = some a ↔ xs = [a] := by
  rcases xs with _ | ⟨b, _ | ⟨c, xs⟩⟩ <;> simp [single?]

variable {p : Program} {f : FuncId}

namespace Loop

theorem contains_iff {l : Loop} {b : BlockId} : l.contains b = true ↔ b ∈ l.blocks :=
  TreeSet.contains_iff_mem

/-- A natural loop of a function. -/
structure Natural (p : Program) (f : FuncId) (l : Loop) : Prop where
  header_mem : l.header ∈ l.blocks
  /-- Control gets to a block of the loop through the header. -/
  dom : ∀ {b}, b ∈ l.blocks → (FlowGraph.forward p f).Dom l.header b
  /-- Control gets into the loop at the header only. -/
  closed : ∀ {a b}, b ∈ l.blocks → b ≠ l.header → a ∈ (FlowGraph.forward p f).reached →
    b ∈ (p.block a).succs → a ∈ l.blocks
  mem_latches_iff : ∀ {a}, a ∈ l.latches ↔
    l.header ∈ (p.block a).succs ∧ (FlowGraph.forward p f).Dom l.header a
  mem_of_latch : ∀ {a}, a ∈ l.latches → a ∈ l.blocks
  exists_latch : ∃ a, a ∈ l.latches
  /-- The loop holds the header, the latches and what leads to them, and nothing else. -/
  least : ∀ {P : BlockId → Prop}, P l.header → (∀ a ∈ l.latches, P a) →
    (∀ a b, b ∈ l.blocks → b ≠ l.header → P b → a ∈ (FlowGraph.forward p f).reached →
      b ∈ (p.block a).succs → P a) → ∀ b ∈ l.blocks, P b

namespace Natural

variable {l m : Loop} {b h : BlockId}

/-- A loop that goes on behind a block goes through it, if its header dominates the block. -/
theorem mem_of_dom (hm : m.Natural p f) (hmh : (FlowGraph.forward p f).Dom m.header h)
    (hhb : (FlowGraph.forward p f).Dom h b) (hb : b ∈ m.blocks) : h ∈ m.blocks := by
  have hall : ∀ b ∈ (FlowGraph.forward p f).reached, (FlowGraph.forward p f).Dom h b →
      b ∈ m.blocks → h ∈ m.blocks := by
    refine FlowGraph.reached_induction (fun b hroot hlt hhb hb => ?_)
      (fun a ha ih b hab hlt hhb hb => ?_)
    · by_cases heq : b = h
      · exact heq ▸ hb
      · exact absurd (FlowGraph.mem_around_of_root hroot hlt heq) hhb.not_around
    · by_cases heq : b = h
      · exact heq ▸ hb
      · by_cases hheader : b = m.header
        · exact absurd (hhb.antisymm (hheader ▸ hmh)).symm heq
        · exact ih (hhb.of_next heq ha hab hlt) (hm.closed hb hheader ha hab)
  exact hall b hhb.reached hhb hb

/-- Of two loops that share a block, the one whose header dominates the other header holds the
other loop. -/
theorem subset_of_dom (hl : l.Natural p f) (hm : m.Natural p f)
    (hdom : (FlowGraph.forward p f).Dom m.header l.header) (hb : b ∈ l.blocks)
    (hbm : b ∈ m.blocks) :
    ∀ c ∈ l.blocks, c ∈ m.blocks := by
  have hheader : l.header ∈ m.blocks := hm.mem_of_dom hdom (hl.dom hb) hbm
  by_cases heq : m.header = l.header
  · refine hl.least hheader (fun a ha => ?_) (fun a c hc hne hcm ha hac => ?_)
    · exact hm.mem_of_latch (hm.mem_latches_iff.2 (heq ▸ hl.mem_latches_iff.1 ha))
    · exact hm.closed hcm (heq ▸ hne) ha hac
  · -- the header of the outer loop is not in the inner one
    have hout {c : BlockId} (hc : c ∈ l.blocks) : c ≠ m.header := by
      rintro rfl
      exact heq (hdom.antisymm (hl.dom hc))
    refine hl.least hheader (fun a ha => ?_) (fun a c hc _ hcm ha hac => ?_)
    · obtain ⟨hedge, ha⟩ := hl.mem_latches_iff.1 ha
      exact hm.closed hheader (hout hl.header_mem) ha.reached hedge
    · exact hm.closed hcm (hout hc) ha hac

/-- A loop that shares a block with a loop that is no smaller lies in it. -/
theorem subset_of_size_le (hl : l.Natural p f) (hm : m.Natural p f) (hb : b ∈ l.blocks)
    (hbm : b ∈ m.blocks) (hsize : l.blocks.size ≤ m.blocks.size) :
    ∀ c ∈ l.blocks, c ∈ m.blocks := by
  rcases (hm.dom hbm).total (hl.dom hb) with hdom | hdom
  · exact hl.subset_of_dom hm hdom hb hbm
  · exact IdSet.mem_of_size_le (hm.subset_of_dom hl hdom hbm hb) hsize

/-- Control can go on in the loop from each of its blocks. -/
theorem exists_succ (hl : l.Natural p f) (hb : b ∈ l.blocks) :
    ∃ c ∈ (p.block b).succs, c ∈ l.blocks := by
  have hlatch {a : BlockId} (ha : a ∈ l.latches) : ∃ c ∈ (p.block a).succs, c ∈ l.blocks :=
    ⟨l.header, (hl.mem_latches_iff.1 ha).1, hl.header_mem⟩
  -- the first step of a way from the header to another block of the loop stays in it
  have hfirst : ∀ b ∈ (FlowGraph.forward p f).reached, b ∈ l.blocks → b ≠ l.header →
      ∃ c ∈ (p.block l.header).succs, c ∈ l.blocks := by
    refine FlowGraph.reached_induction (fun b hroot hlt hb hne => ?_)
      (fun a ha ih b hab _ hb hne => ?_)
    · exact absurd (FlowGraph.mem_around_of_root hroot hlt hne) (hl.dom hb).not_around
    · by_cases heq : a = l.header
      · exact ⟨b, heq ▸ hab, hb⟩
      · exact ih (hl.closed hb hne ha hab) heq
  have hheader : ∃ c ∈ (p.block l.header).succs, c ∈ l.blocks := by
    obtain ⟨a, ha⟩ := hl.exists_latch
    by_cases heq : a = l.header
    · exact heq ▸ hlatch ha
    · have hmem := hl.mem_of_latch ha
      exact hfirst a (hl.dom hmem).reached hmem heq
  exact hl.least (P := fun b => ∃ c ∈ (p.block b).succs, c ∈ l.blocks) hheader
    (fun a ha => hlatch ha)
    (fun a b hb _ _ _ hab => ⟨b, hab, hb⟩) b hb

end Natural

/-! ## the loop of a header -/

theorem mem_latchesOf_iff (hp : p.Linked) {a h : BlockId} :
    a ∈ latchesOf p (.dominators p f) h ↔
      h ∈ (p.block a).succs ∧ (FlowGraph.forward p f).Dom h a := by
  rw [latchesOf, List.mem_filter, Bool.and_eq_true, Bool.and_eq_true, hp.dominates_iff,
    List.contains_iff_mem, hp.isReachable_iff]
  constructor
  · rintro ⟨-, ⟨-, hedge⟩, hdom⟩
    exact ⟨hedge, hdom⟩
  · rintro ⟨hedge, hdom⟩
    exact ⟨(hp.closed_forward f).mem_blocks a hdom.reached, ⟨hdom.reached, hedge⟩, hdom⟩

/-- The header with the blocks that reach a latch around it is a loop. -/
theorem natural_ofHeader (hp : p.Linked) {h : BlockId}
    (hlatch : latchesOf p (.dominators p f) h ≠ []) (parent : Option LoopId) (depth : Nat) :
    Natural p f { ofHeader p (.dominators p f) h with parent, depth } := by
  obtain ⟨latch, hlatch⟩ := List.exists_mem_of_ne_nil _ hlatch
  have hreached : h ∈ (FlowGraph.forward p f).reached :=
    ((mem_latchesOf_iff hp).1 hlatch).2.reached_left
  have hpred {a b : BlockId} :
      a ∈ (if b = h then [] else (p.block b).preds.filter (Dominance.dominators p f).isReachable) ↔
        b ≠ h ∧ b ∈ (p.block a).succs ∧ a ∈ (FlowGraph.forward p f).reached := by
    split
    · next heq => simp [heq]
    · next hne =>
      rw [List.mem_filter, hp.mem_preds_iff, and_iff_right hne, hp.isReachable_iff]
  have hstart {a : BlockId} (ha : a = h ∨ a ∈ latchesOf p (.dominators p f) h) :
      a ∈ h :: latchesOf p (.dominators p f) h := List.mem_cons.2 ha
  constructor
  case header_mem => exact mem_reachable_of_start (hstart (.inl rfl)) (lt_of_mem_reachable hreached)
  case dom =>
    intro b hb
    refine reachable_induction (P := (FlowGraph.forward p f).Dom h) (fun b hb _ => ?_)
      (fun b _ hdom a ha _ => ?_) b hb
    · rcases List.mem_cons.1 hb with rfl | hb
      · exact .refl hreached
      · exact ((mem_latchesOf_iff hp).1 hb).2
    · have hlt := lt_of_mem_reachable hdom.reached
      obtain ⟨hne, hedge, ha⟩ := hpred.1 ha
      exact hdom.of_next hne ha hedge hlt
  case closed =>
    intro a b hb hne ha hedge
    exact mem_reachable_of_next hb (hpred.2 ⟨hne, hedge, ha⟩) (lt_of_mem_reachable ha)
  case mem_latches_iff => exact mem_latchesOf_iff hp
  case mem_of_latch =>
    intro a ha
    exact mem_reachable_of_start (hstart (.inr ha))
      (lt_of_mem_reachable ((mem_latchesOf_iff hp).1 ha).2.reached)
  case exists_latch => exact ⟨latch, hlatch⟩
  case least =>
    intro P hheader hlatches hstep
    refine reachable_induction (fun b hb _ => ?_) (fun b hb hP a ha _ => ?_)
    · rcases List.mem_cons.1 hb with rfl | hb
      · exact hheader
      · exact hlatches b hb
    · obtain ⟨hne, hedge, ha⟩ := hpred.1 ha
      exact hstep a b hb hne hP ha hedge

/-! ## the smallest loop -/

/-- The smallest of some loops is one of them, and there is one unless there are none. -/
theorem smallest?_spec (loops : Array Loop) (js : List LoopId) :
    (smallest? loops js = none → js = []) ∧ ∀ {j}, smallest? loops js = some j →
      j ∈ js ∧ ∀ k ∈ js, (loops.getD j default).blocks.size ≤
      (loops.getD k default).blocks.size := by
  induction js using List.reverseRecOn with
  | nil =>
    refine ⟨fun _ => rfl, fun {j} h => ?_⟩
    cases h
  | append_singleton js x ih =>
    obtain ⟨hnone, hsome⟩ := ih
    rw [smallest?, List.foldl_append, List.foldl_cons, List.foldl_nil, ← smallest?]
    cases hbest : smallest? loops js with
    | none =>
      obtain rfl := hnone hbest
      refine ⟨fun h => absurd h (Option.some_ne_none x), fun {j} h => ?_⟩
      cases h
      exact ⟨List.mem_singleton_self x, fun k hk => List.mem_singleton.1 hk ▸ Nat.le_refl _⟩
    | some y =>
      obtain ⟨hy, hle⟩ := hsome hbest
      dsimp only
      split
      · next hlt =>
        refine ⟨fun h => absurd h (Option.some_ne_none x), fun {j} h => ?_⟩
        cases h
        refine ⟨List.mem_append_right _ (List.mem_singleton_self x), fun k hk => ?_⟩
        rcases List.mem_append.1 hk with hk | hk
        · exact Nat.le_trans (Nat.le_of_lt hlt) (hle k hk)
        · exact List.mem_singleton.1 hk ▸ Nat.le_refl _
      · next hge =>
        refine ⟨fun h => absurd h (Option.some_ne_none y), fun {j} h => ?_⟩
        cases h
        refine ⟨List.mem_append_left _ hy, fun k hk => ?_⟩
        rcases List.mem_append.1 hk with hk | hk
        · exact hle k hk
        · rw [List.mem_singleton.1 hk]
          exact Nat.le_of_not_lt hge

end Loop

/-- The loops of a function of a program. -/
abbrev Program.loops (p : Program) (f : FuncId) : Loops := .ofFunction p (.dominators p f)

namespace Loops

/-- A loop of a function is that of a header with a latch. -/
theorem exists_header {j : LoopId} (hj : j < (p.loops f).loops.size) :
    ∃ h parent depth, Loop.latchesOf p (.dominators p f) h ≠ [] ∧
      (p.loops f).get j =
        { Loop.ofHeader p (.dominators p f) h with parent, depth } := by
  simp only [Program.loops, ofFunction, Array.size_mapIdx, List.size_toArray, List.length_map] at hj
  refine ⟨?header, ?parent, ?depth, ?latch, ?get⟩
  case get =>
    simp only [Program.loops, ofFunction, get, Array.getD_eq_getD_getElem?, Array.getElem?_mapIdx,
      List.getElem?_toArray,
      List.getElem?_map, List.getElem?_eq_getElem hj, Option.map_some, Option.getD_some]
    rfl
  case latch =>
    have hlatch := (List.mem_filter.1 (List.getElem_mem hj)).2
    rwa [Bool.not_eq_true', List.isEmpty_eq_false_iff] at hlatch

theorem natural_get (hp : p.Linked) {j : LoopId}
    (hj : j < (p.loops f).loops.size) :
    ((p.loops f).get j).Natural p f := by
  obtain ⟨h, parent, depth, hlatch, hget⟩ := exists_header hj
  rw [hget]
  exact Loop.natural_ofHeader hp hlatch parent depth

/-- The loops around a block. -/
def around (ls : Loops) (b : BlockId) : List LoopId :=
  (List.range ls.loops.size).filter fun j => (ls.get j).contains b

theorem mem_around_iff {ls : Loops} {b : BlockId} {j : LoopId} :
    j ∈ ls.around b ↔ j < ls.loops.size ∧ b ∈ (ls.get j).blocks := by
  rw [around, List.mem_filter, List.mem_range, Loop.contains_iff]

/-- The loop recorded for a block is the smallest around it. -/
theorem loopOf_eq {b : BlockId} : (p.loops f).loopOf b = if b ∈ (p.func f).blocks then
    Loop.smallest? (p.loops f).loops ((p.loops f).around b) else none := by
  let smallest (b : BlockId) := Loop.smallest? (p.loops f).loops ((p.loops f).around b)
  have hget : (p.loops f).innermost[b]? =
      (if b ∈ (p.func f).blocks then smallest b else none).or (∅ : IdMap LoopId)[b]? := by
    refine IdMap.getElem?_foldl_insert (fun m x j hj => ?_) (fun m x hnone => ?_)
    · split
      · next hk => rw [Option.some.inj (hk.symm.trans hj)]
      · next hk => cases hk.symm.trans hj
    · split
      · next hk => cases hk.symm.trans hnone
      · rfl
  rw [TreeMap.getElem?_emptyc, Option.or_none] at hget
  exact hget

theorem mem_around_of_loopOf {b : BlockId} {j : LoopId} (h : (p.loops f).loopOf b = some j) :
    j ∈ (p.loops f).around b := by
  rw [loopOf_eq] at h
  split at h
  · exact ((Loop.smallest?_spec _ _).2 h).1
  · cases h

/-- The smallest loop around a block lies in every loop around it. -/
theorem exists_loopOf (hp : p.Linked) {b : BlockId} {k : LoopId} (hk : k ∈ (p.loops f).around b) :
    ∃ j, (p.loops f).loopOf b = some j ∧
      ∀ c ∈ ((p.loops f).get j).blocks, c ∈ ((p.loops f).get k).blocks := by
  obtain ⟨hlt, hb⟩ := mem_around_iff.1 hk
  have hnatural := natural_get hp hlt
  have hblock : b ∈ (p.func f).blocks :=
    (hp.closed_forward f).mem_blocks b (hnatural.dom hb).reached
  rw [loopOf_eq, if_pos hblock]
  obtain ⟨hnone, hsome⟩ := Loop.smallest?_spec (p.loops f).loops ((p.loops f).around b)
  cases hsmall : Loop.smallest? (p.loops f).loops ((p.loops f).around b) with
  | none =>
    rw [hnone hsmall] at hk
    cases hk
  | some j =>
    obtain ⟨hj, hle⟩ := hsome hsmall
    obtain ⟨hj_lt, hbj⟩ := mem_around_iff.1 hj
    exact ⟨j, rfl, (natural_get hp hj_lt).subset_of_size_le hnatural hbj hb (hle k hk)⟩

theorem loopOf_spec (hp : p.Finished) {b : BlockId} {k : LoopId} (hk : k ∈ (p.loops f).around b) :
    ∃ j, (p.loops f).loopOf b = some j ∧
      ∀ c ∈ ((p.loops f).get j).blocks, c ∈ ((p.loops f).get k).blocks :=
  exists_loopOf hp.linked hk

end Loops

end DataRace
