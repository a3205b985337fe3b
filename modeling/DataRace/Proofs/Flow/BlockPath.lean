import DataRace.Proofs.Flow.DomTree
import DataRace.Proofs.Program.Session

/-!
# DataRace.Proofs.Flow.BlockPath

Dominance by the paths of control flow.

`PathDom` says in terms of paths alone when a block dominates another one:
both have a path, and every path of the second goes through the first.  For
dominance the paths come from the entry of the function, for post-dominance they
lead to a block without successors.

* `Dominance.Exact` — a tree that answers what the paths say;
* `Dominance.exact_of_way` — the tree of a graph that stays in its blocks is exact;
* `Session.dominance_exact` — both trees of every function of what is built are.
-/

namespace DataRace

open FlowGraph

/-! ## paths -/

namespace Program

/-- A path from the entry of a function to a block. -/
structure EntryPath (p : Program) (f : FuncId) (w : List BlockId) (b : BlockId) : Prop where
  chain : w.IsChain fun x y => y ∈ (p.block x).succs
  starts : w.head? = (p.func f).entry
  ends : w.getLast? = some b

/-- A path from one block to another. -/
structure BlockPath (p : Program) (w : List BlockId) (a b : BlockId) : Prop where
  chain : w.IsChain fun x y => y ∈ (p.block x).succs
  starts : w.head? = some a
  ends : w.getLast? = some b

/-- A path from a block to a block of the function that has no successors. -/
structure EndPath (p : Program) (f : FuncId) (w : List BlockId) (b : BlockId) : Prop where
  chain : w.IsChain fun x y => y ∈ (p.block x).succs
  starts : w.head? = some b
  ends : ∃ e ∈ (p.func f).blocks, (p.block e).succs = [] ∧ w.getLast? = some e

variable {p : Program} {f : FuncId} {u v w : List BlockId} {a b c : Nat}

theorem BlockPath.single (p : Program) (b : BlockId) : p.BlockPath [b] b b :=
  ⟨List.isChain_singleton b, rfl, rfl⟩

theorem BlockPath.cons (hw : p.BlockPath w b c) (hab : b ∈ (p.block a).succs) :
    p.BlockPath (a :: w) a c := by
  obtain ⟨hchain, hstarts, hends⟩ := hw
  cases w with
  | nil => cases hstarts
  | cons d w =>
    cases hstarts
    exact ⟨List.isChain_cons_cons.2 ⟨hab, hchain⟩, rfl, hends⟩

/-- A path through a block is a path to it with one from it. -/
theorem entryPath_append_cons_iff :
    p.EntryPath f (u ++ a :: v) b ↔ p.EntryPath f (u ++ [a]) a ∧ p.BlockPath (a :: v) a b := by
  have hhead : (u ++ a :: v).head? = (u ++ [a]).head? := by cases u <;> rfl
  have hlast : (u ++ a :: v).getLast? = (a :: v).getLast? :=
    List.getLast?_append_of_ne_nil u (List.cons_ne_nil a v)
  constructor
  · rintro ⟨hchain, hstarts, hends⟩
    obtain ⟨hto, hfrom⟩ := List.isChain_split.1 hchain
    exact ⟨⟨hto, hhead ▸ hstarts, List.getLast?_concat⟩, hfrom, rfl, hlast ▸ hends⟩
  · rintro ⟨hto, hfrom⟩
    exact ⟨List.isChain_split.2 ⟨hto.chain, hfrom.chain⟩, hhead ▸ hto.starts, hlast ▸ hfrom.ends⟩

/-- A path goes on along an edge. -/
theorem EntryPath.append (hw : p.EntryPath f w a) (hab : b ∈ (p.block a).succs)
    (hv : p.BlockPath v b c) : p.EntryPath f (w ++ v) c := by
  obtain ⟨u, rfl⟩ := List.getLast?_eq_some_iff.1 hw.ends
  rw [List.append_assoc]
  exact entryPath_append_cons_iff.2 ⟨hw, hv.cons hab⟩

theorem entryPath_iff_way : p.EntryPath f w b ↔ (FlowGraph.forward p f).Way w.reverse b := by
  have hroot : (∃ a ∈ (FlowGraph.forward p f).roots, w.head? = some a) ↔
      w.head? = (p.func f).entry ∧ w ≠ [] := by
    simp only [FlowGraph.forward, Option.mem_toList]
    cases w with
    | nil => simp
    | cons c w => simp [eq_comm]
  rw [Way, Track, List.isChain_reverse, List.head?_reverse, List.getLast?_reverse, hroot]
  constructor
  · intro h
    refine ⟨h.chain, h.ends, h.starts, ?_⟩
    rintro rfl
    cases h.ends
  · rintro ⟨hchain, hends, hstarts, -⟩
    exact ⟨hchain, hstarts, hends⟩

theorem endPath_iff_way (hp : p.Linked) : p.EndPath f w b ↔ (FlowGraph.backward p f).Way w b := by
  have hedge : (fun x y => x ∈ (p.block y).preds) = fun x y => y ∈ (p.block x).succs := by
    funext x y
    exact propext hp.mem_preds_iff
  have hroot (e : BlockId) : e ∈ (FlowGraph.backward p f).roots ↔
      e ∈ (p.func f).blocks ∧ (p.block e).succs = [] := by
    rw [FlowGraph.backward, List.mem_filter, List.isEmpty_iff]
  rw [Way, Track]
  change _ ↔ w.IsChain (fun x y => x ∈ (p.block y).preds) ∧ _
  simp only [hedge, hroot, and_assoc]
  exact ⟨fun h => ⟨h.chain, h.starts, h.ends⟩, fun h => ⟨h.1, h.2.1, h.2.2⟩⟩

end Program

/-- Both blocks have a path, and every path of `b` goes through `a`. -/
structure PathDom (Path : List BlockId → BlockId → Prop) (a b : BlockId) : Prop where
  left : ∃ w, Path w a
  right : ∃ w, Path w b
  mem : ∀ w, Path w b → a ∈ w

/-- The blocks that a path from the entry leads to are those reached. -/
theorem Program.Linked.exists_entryPath_iff {p : Program} (hp : p.Linked) {f : FuncId} {b : Nat} :
    (∃ w, p.EntryPath f w b) ↔ b ∈ (FlowGraph.forward p f).reached := by
  rw [mem_reached_iff_way (hp.closed_forward f)]
  constructor
  · rintro ⟨w, hw⟩
    exact ⟨w.reverse, entryPath_iff_way.1 hw⟩
  · rintro ⟨w, hw⟩
    exact ⟨w.reverse, entryPath_iff_way.2 (by rwa [List.reverse_reverse])⟩

/-- Dominance by the paths from the entry is dominance in the graph of the function. -/
theorem Program.Linked.pathDom_iff {p : Program} (hp : p.Linked) {f : FuncId} {a b : Nat} :
    PathDom (p.EntryPath f) a b ↔ (FlowGraph.forward p f).Dom a b := by
  have hg := hp.closed_forward f
  rw [Dom.iff_way hg, ← mem_reached_iff_way hg, ← mem_reached_iff_way hg, ← hp.exists_entryPath_iff,
    ← hp.exists_entryPath_iff]
  constructor
  · intro h
    refine ⟨h.left, h.right, fun w hw => ?_⟩
    have hpath : p.EntryPath f w.reverse b := entryPath_iff_way.2 (by rwa [List.reverse_reverse])
    exact List.mem_reverse.1 (h.mem _ hpath)
  · rintro ⟨ha, hb, hall⟩
    exact ⟨ha, hb, fun w hw => List.mem_reverse.1 (hall _ (entryPath_iff_way.1 hw))⟩

/-- A dominance relation that answers what the paths say. -/
structure Dominance.Exact (d : Dominance) (Path : List BlockId → BlockId → Prop) : Prop where
  isReachable_iff : ∀ b, d.isReachable b = true ↔ ∃ w, Path w b
  dominates_iff : ∀ a b, d.dominates a b = true ↔ PathDom Path a b
  /-- The immediate dominator is the strict dominator that all other strict dominators dominate. -/
  parent?_eq_some_iff : ∀ a b, d.parent? b = some a ↔
    (PathDom Path a b ∧ a ≠ b) ∧ ∀ c, PathDom Path c b → c ≠ b → PathDom Path c a
  /-- There is one unless no block dominates strictly. -/
  parent?_eq_none_iff : ∀ b, d.parent? b = none ↔ ∀ a, PathDom Path a b → a = b
  nodup_descendants : ∀ b, (d.descendants b).Nodup
  mem_descendants_iff : ∀ b c, (∃ w, Path w b) → (c ∈ d.descendants b ↔ PathDom Path b c)

/-- The tree of a graph is exact for paths that go through the same blocks as the ways of the
graph. -/
theorem Dominance.exact_of_way {g : FlowGraph} (hg : g.Closed) (post : Bool)
    {Path : List BlockId → BlockId → Prop}
    (hway : ∀ {w b}, Path w b → ∃ v, g.Way v b ∧ ∀ a ∈ v, a ∈ w)
    (hpath : ∀ {v b}, g.Way v b → ∃ w, Path w b ∧ ∀ a ∈ w, a ∈ v) :
    (ofGraph post g).Exact Path := by
  have hex (b : BlockId) : (∃ w, Path w b) ↔ ∃ w, g.Way w b := by
    constructor
    · rintro ⟨w, hw⟩
      exact (hway hw).imp fun _ h => h.1
    · rintro ⟨v, hv⟩
      exact (hpath hv).imp fun _ h => h.1
  have hdom (a b : BlockId) : PathDom Path a b ↔ g.Dom a b := by
    rw [Dom.iff_way hg, ← hex, ← hex]
    constructor
    · intro h
      refine ⟨h.left, h.right, fun v hv => ?_⟩
      obtain ⟨w, hw, hsub⟩ := hpath hv
      exact hsub a (h.mem w hw)
    · rintro ⟨ha, hb, hall⟩
      refine ⟨ha, hb, fun w hw => ?_⟩
      obtain ⟨v, hv, hsub⟩ := hway hw
      exact hsub a (hall v hv)
  constructor
  case isReachable_iff =>
    intro b
    rw [Dominance.isReachable_iff hg, mem_reached_iff_way hg, hex]
  case dominates_iff => exact fun a b => (Dominance.dominates_iff hg).trans (hdom a b).symm
  case parent?_eq_some_iff =>
    intro a b
    rw [Dominance.parent?_eq_some_iff hg]
    simp only [hdom]
    exact ⟨fun h => ⟨⟨h.dom, h.ne⟩, fun _ => h.of_dom⟩, fun h => ⟨h.1.1, h.1.2, h.2 _⟩⟩
  case parent?_eq_none_iff =>
    intro b
    rw [Dominance.parent?_eq_none_iff hg]
    simp only [hdom]
  case nodup_descendants => exact Dominance.nodup_descendants hg
  case mem_descendants_iff =>
    intro b c hb
    have hb : b ∈ g.reached := (mem_reached_iff_way hg).2 ((hex b).1 hb)
    rw [Dominance.mem_descendants_iff hg (hg.mem_blocks b hb), hdom]
    refine or_iff_right_of_imp ?_
    rintro rfl
    exact .refl hb

namespace Session

/-- The passes end for every function of what is built, and its dominator tree and its
post-dominator tree are exact.  From the entry, the blocks without immediate dominator are the entry
and those no path leads to. -/
theorem dominance_exact {calls : List Call} {p : Program} (h : build calls = .ok p) (f : FuncId) :
    ((FlowGraph.forward p f).immediate?.isSome = true ∧
      (Dominance.dominators p f).Exact (p.EntryPath f) ∧
      ∀ b, (Dominance.dominators p f).parent? b = none ↔
        (p.func f).entry = some b ∨ ¬∃ w, p.EntryPath f w b) ∧
    (FlowGraph.backward p f).immediate?.isSome = true ∧
      (Dominance.postDominators p f).Exact (p.EndPath f) := by
  have hp := linked_of_build h
  have hforward := hp.closed_forward f
  have hbackward := hp.closed_backward f
  have hexact : (Dominance.dominators p f).Exact (p.EntryPath f) :=
    Dominance.exact_of_way hforward false
      (fun {w} b h => ⟨w.reverse, Program.entryPath_iff_way.1 h, fun _ => List.mem_reverse.1⟩)
      (fun {w} b h => ⟨w.reverse, Program.entryPath_iff_way.2 (by rwa [List.reverse_reverse]),
        fun _ => List.mem_reverse.1⟩)
  refine ⟨⟨?_, hexact, fun b => ?_⟩, ?_, ?_⟩
  · obtain ⟨m, hm, -⟩ := hforward.exists_immediate
    rw [hm]
    rfl
  · rw [hexact.parent?_eq_none_iff]
    constructor
    · intro hall
      by_contra hnot
      rw [not_or, not_not] at hnot
      obtain ⟨hne, w, hw⟩ := hnot
      cases w with
      | nil => cases hw.ends
      | cons e w =>
        -- the entry is on all paths
        have hstart : some e = (p.func f).entry := hw.starts
        have hdom : PathDom (p.EntryPath f) e b := by
          refine ⟨⟨[e], List.isChain_singleton e, hstart, rfl⟩, ⟨_, hw⟩, fun v hv => ?_⟩
          exact List.mem_of_mem_head? (hv.starts.trans hstart.symm)
        exact hne (hstart ▸ congrArg some (hall e hdom))
    · rintro (hentry | hnot) a ha
      · have hpath : p.EntryPath f [b] b := ⟨List.isChain_singleton b, hentry.symm, rfl⟩
        exact List.mem_singleton.1 (ha.mem [b] hpath)
      · exact absurd ha.right hnot
  · obtain ⟨m, hm, -⟩ := hbackward.exists_immediate
    rw [hm]
    rfl
  · exact Dominance.exact_of_way hbackward true
      (fun {w} b h => ⟨w, (Program.endPath_iff_way hp).1 h, fun _ ha => ha⟩)
      (fun {w} b h => ⟨w, (Program.endPath_iff_way hp).2 h, fun _ ha => ha⟩)

/-- Two blocks that lead to each other, both behind the entry; one goes on to the return, the other
to an endless loop, and nothing leads to the last block. -/
def crossing : List Call :=
  [.declare "main" 0, .const 0, .body 0, .newBlock, .newBlock, .newBlock, .newBlock, .newBlock,
    .append (.branch 1 1 2), .positionAt 1, .append (.branch 1 2 3), .positionAt 2,
    .append (.branch 1 1 4), .positionAt 3, .append (.ret none), .positionAt 4, .append (.jump 4),
    .positionAt 5, .append (.jump 3)]

theorem dominance_exact_crossing : ∃ p, build crossing = .ok p ∧
    (Dominance.dominators p 0).Exact (p.EntryPath 0) ∧
    (Dominance.postDominators p 0).Exact (p.EndPath 0) ∧
    (List.range 6).map (Dominance.dominators p 0).parent? =
      [none, some 0, some 0, some 1, some 2, none] ∧
    (List.range 6).map (Dominance.postDominators p 0).parent? =
      [some 1, some 3, some 1, none, none, some 3] := by
  obtain ⟨p, h, hp⟩ := exists_of_any_toOption (x := build crossing)
    (P := fun p => decide ((List.range 6).map (Dominance.dominators p 0).parent? =
        [none, some 0, some 0, some 1, some 2, none] ∧
      (List.range 6).map (Dominance.postDominators p 0).parent? =
        [some 1, some 3, some 1, none, none, some 3]))
    (by decide +kernel)
  rw [decide_eq_true_eq] at hp
  have hexact := dominance_exact h 0
  exact ⟨p, h, hexact.1.2.1, hexact.2.2, hp⟩

end Session

end DataRace
