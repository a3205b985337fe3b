import DataRace.Flow.Dominance
import DataRace.Proofs.Flow.Search
import DataRace.Proofs.Program.Finished

/-!
# DataRace.Proofs.Flow.Dominance

What dominance should be.

A block dominates another if the second cannot be reached around the first.
Everything here follows from how blocks are reached around others, one step of
control at a time:

* `FlowGraph.mem_around_or` — a way around one block leads around another one or
  gets to it;
* `Dom.trans`, `Dom.antisymm`, `Dom.total` — dominance is an order, and the
  dominators of a block are ordered among themselves;
* `FlowGraph.Way` — ways from a root, one block after the other, and
  `Dom.iff_way`: what dominates a block is on every way to it;
* `FlowGraph.Closed` — the edges stay in the function, `Linked.closed_forward`
  and `Linked.closed_backward`.
-/

namespace DataRace

open Std

namespace FlowGraph

/-- The blocks reachable from the roots. -/
def reached (g : FlowGraph) : IdSet := reachable g.size g.next g.roots

/-- The blocks reachable from the roots without entering `a`. -/
def reachedAround (g : FlowGraph) (a : BlockId) : IdSet :=
  reachable g.size (fun b => (g.next b).filter (· != a)) (g.roots.filter (· != a))

variable {g : FlowGraph} {a b c : Nat}

/-! ## reaching blocks -/

theorem mem_reached_of_next (ha : a ∈ g.reached) (hb : b ∈ g.next a) (hlt : b < g.size) :
    b ∈ g.reached := mem_reachable_of_next ha hb hlt

/-- What holds of the roots and is kept by every step holds of all reached blocks. -/
theorem reached_induction {P : Nat → Prop} (hroot : ∀ b ∈ g.roots, b < g.size → P b)
    (hstep : ∀ a ∈ g.reached, P a → ∀ b ∈ g.next a, b < g.size → P b) : ∀ b ∈ g.reached, P b :=
  reachable_induction hroot hstep

theorem mem_around_of_root (hb : b ∈ g.roots) (hlt : b < g.size) (hne : b ≠ a) :
    b ∈ g.reachedAround a :=
  mem_reachable_of_start (List.mem_filter.2 ⟨hb, bne_iff_ne.2 hne⟩) hlt

theorem mem_around_of_next (hc : c ∈ g.reachedAround a) (hb : b ∈ g.next c) (hlt : b < g.size)
    (hne : b ≠ a) : b ∈ g.reachedAround a :=
  mem_reachable_of_next hc (List.mem_filter.2 ⟨hb, bne_iff_ne.2 hne⟩) hlt

theorem around_induction {P : Nat → Prop} (hroot : ∀ b ∈ g.roots, b < g.size → b ≠ a → P b)
    (hstep : ∀ c ∈ g.reachedAround a, P c → ∀ b ∈ g.next c, b < g.size → b ≠ a → P b) :
    ∀ b ∈ g.reachedAround a, P b := by
  refine reachable_induction (fun b hb hlt => ?_) (fun c hc hP b hb hlt => ?_)
  · have hb := List.mem_filter.1 hb
    exact hroot b hb.1 hlt (bne_iff_ne.1 hb.2)
  · have hb := List.mem_filter.1 hb
    exact hstep c hc hP b hb.1 hlt (bne_iff_ne.1 hb.2)

theorem not_mem_around_self : a ∉ g.reachedAround a := by
  intro h
  have hne := around_induction (P := fun b => b ≠ a) (fun _ _ _ hne => hne)
    (fun _ _ _ _ _ _ hne => hne) a h
  exact hne rfl

/-- A way around `a` leads around `b` or gets to it. -/
theorem mem_around_or (h : c ∈ g.reachedAround a) :
    c ∈ g.reachedAround b ∨ b ∈ g.reachedAround a := by
  by_cases hb : b ∈ g.reachedAround a
  · exact .inr hb
  · left
    have hne (x : Nat) (hx : x ∈ g.reachedAround a) : x ≠ b := fun heq => hb (heq ▸ hx)
    refine around_induction (P := fun x => x ∈ g.reachedAround b) ?_ ?_ c h
    · intro x hx hlt hxa
      exact mem_around_of_root hx hlt (hne x (mem_around_of_root hx hlt hxa))
    · intro x hx hxb y hy hlt hya
      exact mem_around_of_next hxb hy hlt (hne y (mem_around_of_next hx hy hlt hya))

/-- Of two different blocks that are reached around each other, every block is reached around
one. -/
theorem mem_around_either (hab : a ≠ b) (ha : a ∈ g.reachedAround b) (hb : b ∈ g.reachedAround a) :
    ∀ c ∈ g.reached, c ∈ g.reachedAround a ∨ c ∈ g.reachedAround b := by
  refine reached_induction (fun x hx hlt => ?_) (fun x _ hx y hy hlt => ?_)
  · by_cases hxa : x = a
    · exact .inr (mem_around_of_root hx hlt (hxa ▸ hab))
    · exact .inl (mem_around_of_root hx hlt hxa)
  · by_cases hya : y = a
    · exact .inr (hya ▸ ha)
    · by_cases hyb : y = b
      · exact .inl (hyb ▸ hb)
      · exact hx.imp (mem_around_of_next · hy hlt hya) (mem_around_of_next · hy hlt hyb)

/-- Of two different reached blocks one is reached around the other. -/
theorem around_or_around (hab : a ≠ b) (ha : a ∈ g.reached) :
    a ∈ g.reachedAround b ∨ b ∈ g.reachedAround a := by
  -- On the way to `a`, the first of the two is reached around the other.
  have hall : ∀ c ∈ g.reached, c ∈ g.reachedAround a ∧ c ∈ g.reachedAround b ∨
      a ∈ g.reachedAround b ∨ b ∈ g.reachedAround a := by
    refine reached_induction (fun x hx hlt => ?_) (fun x _ hx y hy hlt => ?_)
    · by_cases hxa : x = a
      · exact .inr (.inl (hxa ▸ mem_around_of_root hx hlt (hxa ▸ hab)))
      · by_cases hxb : x = b
        · exact .inr (.inr (hxb ▸ mem_around_of_root hx hlt hxa))
        · exact .inl ⟨mem_around_of_root hx hlt hxa, mem_around_of_root hx hlt hxb⟩
    · rcases hx with ⟨hxa, hxb⟩ | hx
      · by_cases hya : y = a
        · exact .inr (.inl (hya ▸ mem_around_of_next hxb hy hlt (hya ▸ hab)))
        · by_cases hyb : y = b
          · exact .inr (.inr (hyb ▸ mem_around_of_next hxa hy hlt hya))
          · exact .inl ⟨mem_around_of_next hxa hy hlt hya, mem_around_of_next hxb hy hlt hyb⟩
      · exact .inr hx
  rcases hall a ha with ⟨hself, -⟩ | h
  · exact absurd hself not_mem_around_self
  · exact h

/-! ## dominance -/

/-- A block is reached, but not around another one. -/
structure Dom (g : FlowGraph) (a b : BlockId) : Prop where
  reached_left : a ∈ g.reached
  reached : b ∈ g.reached
  not_around : b ∉ g.reachedAround a

namespace Dom

theorem refl (h : a ∈ g.reached) : g.Dom a a := ⟨h, h, not_mem_around_self⟩

theorem trans (hab : g.Dom a b) (hbc : g.Dom b c) : g.Dom a c := by
  refine ⟨hab.reached_left, hbc.reached, fun hc => ?_⟩
  rcases mem_around_or (b := b) hc with h | h
  · exact hbc.not_around h
  · exact hab.not_around h

theorem antisymm (hab : g.Dom a b) (hba : g.Dom b a) : a = b := by
  by_contra hne
  rcases around_or_around hne hab.reached_left with h | h
  · exact hba.not_around h
  · exact hab.not_around h

/-- The dominators of a block are ordered among themselves. -/
theorem total (hac : g.Dom a c) (hbc : g.Dom b c) : g.Dom a b ∨ g.Dom b a := by
  by_cases hab : a = b
  · exact .inl (hab ▸ refl hac.reached_left)
  · by_cases hb : b ∈ g.reachedAround a
    · refine .inr ⟨hbc.reached_left, hac.reached_left, fun ha => ?_⟩
      rcases mem_around_either hab ha hb c hac.reached with h | h
      · exact hac.not_around h
      · exact hbc.not_around h
    · exact .inl ⟨hac.reached_left, hbc.reached_left, hb⟩

/-- Dominance ends where control comes from elsewhere: what follows a block that is not dominated
is not dominated strictly. -/
theorem of_next (h : g.Dom a b) (hne : b ≠ a) (hc : c ∈ g.reached) (hb : b ∈ g.next c)
    (hlt : b < g.size) : g.Dom a c := by
  refine ⟨h.reached_left, hc, fun hac => h.not_around ?_⟩
  exact mem_around_of_next hac hb hlt hne

/-- What a block dominates is reached from it over blocks that it dominates. -/
theorem transGen (h : g.Dom a b) (hne : b ≠ a) :
    Relation.TransGen (fun x y => y ∈ g.next x ∧ g.Dom a y) a b := by
  suffices hall : ∀ x ∈ g.reached, g.Dom a x → x ≠ a →
      Relation.TransGen (fun x y => y ∈ g.next x ∧ g.Dom a y) a x from hall b h.reached h hne
  refine reached_induction (fun x hroot hlt hx hne => ?_) (fun x hx ih y hy hlt hdom hne => ?_)
  · exact absurd (mem_around_of_root hroot hlt hne) hx.not_around
  · by_cases hxa : x = a
    · exact .single ⟨hxa ▸ hy, hdom⟩
    · exact (ih (hdom.of_next hne hx hy hlt) hxa).tail ⟨hy, hdom⟩

end Dom

/-! ## graphs that stay in their blocks -/

/-- The roots and what follows a block are blocks. -/
structure Closed (g : FlowGraph) : Prop where
  nodup : g.blocks.Nodup
  lt : ∀ {b : Nat}, b ∈ g.blocks → b < g.size
  root_mem : ∀ {b : Nat}, b ∈ g.roots → b ∈ g.blocks
  next_mem : ∀ {a b : Nat}, a ∈ g.blocks → b ∈ g.next a → b ∈ g.blocks

theorem Closed.mem_blocks (hg : g.Closed) : ∀ b ∈ g.reached, b ∈ g.blocks :=
  reached_induction (fun _ hb _ => hg.root_mem hb) (fun _ _ ha _ hb _ => hg.next_mem ha hb)

/-! ## ways -/

/-- A way to a block, written down from its end: each block follows the next in the list, and the
last one is a root. -/
def Way (g : FlowGraph) : List BlockId → BlockId → Prop := Track g.next g.roots

theorem Way.mem_blocks (hg : g.Closed) {w : List BlockId} (h : g.Way w b) : ∀ x ∈ w, x ∈ g.blocks :=
  h.induction (fun _ hr => hg.root_mem hr) fun _ ha _ hb => hg.next_mem ha hb

theorem mem_reached_iff_way (hg : g.Closed) : b ∈ g.reached ↔ ∃ w, g.Way w b := by
  rw [reached, mem_reachable_iff_track]
  exact exists_congr fun w => and_iff_left_of_imp fun h y hy => hg.lt (Way.mem_blocks hg h y hy)

theorem mem_around_iff_way (hg : g.Closed) : b ∈ g.reachedAround a ↔ ∃ w, g.Way w b ∧ a ∉ w := by
  rw [reachedAround, mem_reachable_iff_track]
  refine exists_congr fun w => ?_
  rw [track_filter_iff, and_assoc]
  refine and_congr_right fun h => ?_
  constructor
  · exact fun hw ha => absurd rfl (bne_iff_ne.1 (hw.1 a ha))
  · exact fun ha => ⟨fun y hy => bne_iff_ne.2 fun heq => ha (heq ▸ hy),
      fun y hy => hg.lt (Way.mem_blocks hg h y hy)⟩

/-- What dominates a block is on every way to it. -/
theorem Dom.iff_way (hg : g.Closed) : g.Dom a b ↔
    (∃ w, g.Way w a) ∧ (∃ w, g.Way w b) ∧ ∀ w, g.Way w b → a ∈ w := by
  rw [← mem_reached_iff_way hg, ← mem_reached_iff_way hg]
  constructor
  · intro h
    refine ⟨h.reached_left, h.reached, fun w hw => ?_⟩
    by_contra hnot
    exact h.not_around ((mem_around_iff_way hg).2 ⟨w, hw, hnot⟩)
  · rintro ⟨ha, hb, hall⟩
    refine ⟨ha, hb, fun haround => ?_⟩
    obtain ⟨w, hw, hnot⟩ := (mem_around_iff_way hg).1 haround
    exact hnot (hall w hw)

end FlowGraph

/-! ## the graphs of a function -/

namespace Program.Linked

variable {p : Program}

/-- Control stays in the blocks of a function. -/
theorem closed_forward (hp : p.Linked) (f : FuncId) : (FlowGraph.forward p f).Closed where
  nodup := hp.nodup_blocks
  lt hb := (hp.mem_blocks_iff.1 hb).1
  root_mem hb := List.mem_of_mem_head? (Option.mem_toList.1 hb)
  next_mem ha hb := (hp.mem_blocks_iff.1 ha).2 ▸ hp.mem_blocks_of_succ hb

/-- Against the edges as well. -/
theorem closed_backward (hp : p.Linked) (f : FuncId) : (FlowGraph.backward p f).Closed where
  nodup := hp.nodup_blocks
  lt hb := (hp.mem_blocks_iff.1 hb).1
  root_mem hb := (List.mem_filter.1 hb).1
  next_mem ha hb := by
    obtain ⟨hlt, -, hfunc⟩ := hp.succ_spec (hp.mem_preds_iff.1 hb)
    exact hp.mem_blocks_iff.2 ⟨hlt, hfunc.symm.trans (hp.mem_blocks_iff.1 ha).2⟩

end Program.Linked

/-- Control stays in the blocks of a function. -/
theorem Program.Finished.mem_blocks_of_reached {p : Program} (hp : p.Finished) {f : FuncId} :
    ∀ b ∈ (FlowGraph.forward p f).reached, b ∈ (p.func f).blocks :=
  (hp.linked.closed_forward f).mem_blocks

end DataRace
