import DataRace.Flow.Facts
import DataRace.Proofs.Flow.BlockPath

/-!
# DataRace.Proofs.Flow.Frontier

Where dominance ends.

The frontier is found from the blocks where control comes together: from each
reachable predecessor one climbs the tree as far as the immediate dominator.
What is met on the way dominates the predecessor, but not the block strictly.

* `Dominance.mem_wayUp_iff` — climbing meets the dominators of a block that do
  not dominate the block where it stops;
* `Program.Linked.length_preds_of_domEnds` — where dominance ends, control comes
  from two blocks, unless it ends at the entry;
* `Session.inFrontier_iff` — the frontier is exact but for an entry with a single
  predecessor.
-/

namespace DataRace

open FlowGraph

namespace Dominance

variable {g : FlowGraph} {post : Bool} {a b x : Nat}

/-- What dominates a block strictly dominates its parent. -/
theorem strictDom_iff (hg : g.Closed) :
    g.Dom b x ∧ b ≠ x ↔ ∃ c, (ofGraph post g).parent? x = some c ∧ g.Dom b c := by
  constructor
  · rintro ⟨hdom, hne⟩
    obtain ⟨c, hc, hbc⟩ := exists_immDom hg hdom hne
    exact ⟨c, (parent?_eq_some_iff hg).2 hc, hbc⟩
  · rintro ⟨c, hc, hbc⟩
    have hc := (parent?_eq_some_iff hg).1 hc
    refine ⟨hbc.trans hc.dom, ?_⟩
    rintro rfl
    exact hc.ne (hc.dom.antisymm hbc)

/-- Climbing from a block to one of its dominators meets the dominators that do not dominate the
end. -/
theorem mem_wayUp_iff (hg : g.Closed) {stop : Option BlockId} {steps : Nat} (ha : a ∈ g.reached)
    (hsteps : (ofGraph post g).depthOf a < steps) (hstop : ∀ c, stop = some c → g.Dom c a) :
    b ∈ (ofGraph post g).wayUp stop steps (some a) ↔
      g.Dom b a ∧ ∀ c, stop = some c → ¬g.Dom b c := by
  induction steps generalizing a with
  | zero => omega
  | succ steps ih =>
    rw [wayUp]
    split
    · next heq => exact iff_of_false List.not_mem_nil fun h => h.2 a heq h.1
    · next hne =>
      -- the end is further up
      have habove {c : BlockId} (hc : stop = some c) : c ≠ a := fun heq => hne (heq ▸ hc)
      have hself : g.Dom a a ∧ ∀ c, stop = some c → ¬g.Dom a c :=
        ⟨.refl ha, fun c hc hac => habove hc ((hstop c hc).antisymm hac)⟩
      rw [List.mem_cons]
      cases hparent : (ofGraph post g).parent? a with
      | none =>
        have htop := (parent?_eq_none_iff hg).1 hparent
        have hnil : (ofGraph post g).wayUp stop steps none = [] := by cases steps <;> rfl
        rw [hnil]
        constructor
        · rintro (rfl | hb)
          · exact hself
          · cases hb
        · exact fun h => .inl (htop b h.1)
      | some e =>
        have he := (parent?_eq_some_iff hg).1 hparent
        have hdepth : (ofGraph post g).depthOf a = (ofGraph post g).depthOf e + 1 :=
          depthOf_eq hg he
        rw [ih he.dom.reached_left (by omega) fun c hc => he.of_dom (hstop c hc) (habove hc)]
        constructor
        · rintro (rfl | ⟨hbe, hend⟩)
          · exact hself
          · exact ⟨hbe.trans he.dom, hend⟩
        · rintro ⟨hba, hend⟩
          by_cases heq : b = a
          · exact .inl heq
          · exact .inr ⟨he.of_dom hba heq, hend⟩

end Dominance

namespace Program

variable {p : Program} {f : FuncId} {b x : Nat}

/-- The dominance of a block ends at another one: by the paths from the entry it dominates a
predecessor, but not the block strictly. -/
structure DomEnds (p : Program) (f : FuncId) (b x : BlockId) : Prop where
  pred : ∃ a ∈ (p.block x).preds, PathDom (p.EntryPath f) b a
  not_strict : ¬(PathDom (p.EntryPath f) b x ∧ b ≠ x)

namespace Linked

variable (hp : p.Linked)
include hp

/-- A block with a single predecessor is dominated by it, unless it is the entry. -/
theorem dom_of_preds_eq {a : Nat} (hentry : (p.func f).entry ≠ some x)
    (hpreds : (p.block x).preds = [a]) (hx : x ∈ (forward p f).reached) :
    (forward p f).Dom a x ∧ a ≠ x := by
  have hfrom {c : Nat} (hc : x ∈ (p.block c).succs) : c = a :=
    List.mem_singleton.1 (hpreds ▸ hp.mem_preds_iff.2 hc)
  have hroot : x ∉ (forward p f).roots := fun hx => hentry (Option.mem_toList.1 hx)
  have hne : a ≠ x := by
    rintro rfl
    have hall : ∀ b ∈ (forward p f).reached, b ≠ a := by
      refine reached_induction (fun b hb _ heq => hroot (heq ▸ hb)) fun c _ hc b hb _ heq => ?_
      subst heq
      exact hc (hfrom hb)
    exact hall a hx rfl
  have hnot : x ∉ (forward p f).reachedAround a := by
    have hall : ∀ b ∈ (forward p f).reachedAround a, b ≠ x := by
      refine around_induction (fun b hb _ _ heq => hroot (heq ▸ hb)) fun c hc _ b hb _ _ heq => ?_
      subst heq
      exact not_mem_around_self (hfrom hb ▸ hc)
    exact fun h => hall x h rfl
  have ha : a ∈ (forward p f).reached := by
    obtain hx | ⟨c, hc, hxc⟩ := mem_reachable_cases hx
    · exact absurd hx hroot
    · exact hfrom hxc ▸ hc
  exact ⟨⟨ha, hx, hnot⟩, hne⟩

/-- Where dominance ends, control comes from two blocks, unless it ends at the entry. -/
theorem length_preds_of_domEnds (h : p.DomEnds f b x) (hentry : (p.func f).entry ≠ some x) :
    2 ≤ (p.block x).preds.length := by
  obtain ⟨⟨a, ha, hba⟩, hstrict⟩ := h
  rw [hp.pathDom_iff] at hba hstrict
  have hedge := hp.mem_preds_iff.1 ha
  have hx := mem_reached_of_next hba.reached hedge (hp.succ_spec hedge).2.1
  by_contra hlt
  have hpos := List.length_pos_of_mem ha
  obtain ⟨c, hpreds⟩ := List.length_eq_one_iff.1 (by omega : (p.block x).preds.length = 1)
  obtain rfl : a = c := List.mem_singleton.1 (hpreds ▸ ha)
  obtain ⟨hdom, hne⟩ := hp.dom_of_preds_eq hentry hpreds hx
  refine hstrict ⟨hba.trans hdom, ?_⟩
  rintro rfl
  exact hne (hdom.antisymm hba)

/-- A block is in the frontier of those met on the ways up from where control comes together. -/
theorem mem_endingAt_iff : b ∈ (Dominance.dominators p f).endingAt p x ↔
    2 ≤ (p.block x).preds.length ∧ p.DomEnds f b x := by
  have hg := hp.closed_forward f
  have hstrict : (PathDom (p.EntryPath f) b x ∧ b ≠ x) ↔
      ∃ c, (Dominance.dominators p f).parent? x = some c ∧ (forward p f).Dom b c := by
    rw [hp.pathDom_iff]
    exact Dominance.strictDom_iff hg
  have hmem (a : Nat) (ha : a ∈ (p.block x).preds) (hreached : a ∈ (forward p f).reached) :
      b ∈ (Dominance.dominators p f).wayUp ((Dominance.dominators p f).parent? x)
          ((Dominance.dominators p f).depthOf a + 1) (some a) ↔
        PathDom (p.EntryPath f) b a ∧ ¬(PathDom (p.EntryPath f) b x ∧ b ≠ x) := by
    have hedge := hp.mem_preds_iff.1 ha
    have hlt := (hp.succ_spec hedge).2.1
    refine (Dominance.mem_wayUp_iff hg hreached (Nat.lt_succ_self _) fun c hc => ?_).trans ?_
    · have hc := (Dominance.parent?_eq_some_iff hg).1 hc
      exact hc.dom.of_next hc.ne.symm hreached hedge hlt
    · rw [hstrict, hp.pathDom_iff]
      simp only [not_exists, not_and]
  rw [Dominance.endingAt]
  split
  · next hlt => exact iff_of_false List.not_mem_nil fun h => by omega
  · next hle =>
    rw [and_iff_right (Nat.le_of_not_lt hle), List.mem_flatMap]
    constructor
    · rintro ⟨a, ha, hb⟩
      obtain ⟨ha, hreached⟩ := List.mem_filter.1 ha
      obtain ⟨hba, hnot⟩ := (hmem a ha (hp.isReachable_iff.1 hreached)).1 hb
      exact ⟨⟨a, ha, hba⟩, hnot⟩
    · rintro ⟨⟨a, ha, hba⟩, hnot⟩
      have hreached := (hp.pathDom_iff.1 hba).reached
      have hmem := (hmem a ha hreached).2 ⟨hba, hnot⟩
      exact ⟨a, List.mem_filter.2 ⟨ha, hp.isReachable_iff.2 hreached⟩, hmem⟩

end Linked

end Program

namespace Session

/-- **A block is in the frontier of those whose dominance ends there**, unless it is the entry and
has no two predecessors. -/
theorem inFrontier_iff {calls : List Call} {p : Program} (h : build calls = .ok p) (f : FuncId)
    (b x : BlockId) : (FlowFacts.ofFunction p f).inFrontier b x = true ↔
      p.DomEnds f b x ∧ ((p.func f).entry = some x → 2 ≤ (p.block x).preds.length) := by
  have hp := linked_of_build h
  have hblock (hends : p.DomEnds f b x) : x ∈ (p.func f).blocks := by
    obtain ⟨a, ha, hba⟩ := hends.pred
    have hedge := hp.mem_preds_iff.1 ha
    have hreached := (hp.pathDom_iff.1 hba).reached
    exact (hp.closed_forward f).mem_blocks x
      (mem_reached_of_next hreached hedge (hp.succ_spec hedge).2.1)
  have hmem : (FlowFacts.ofFunction p f).inFrontier b x = true ↔
      x ∈ (p.func f).blocks ∧ b ∈ (Dominance.dominators p f).endingAt p x := by
    rw [FlowFacts.inFrontier, Std.TreeSet.contains_iff_mem]
    exact IdMap.mem_getD_foldl_addTo_each.trans (or_iff_right (by simp))
  rw [hmem, hp.mem_endingAt_iff]
  constructor
  · rintro ⟨-, hlen, hends⟩
    exact ⟨hends, fun _ => hlen⟩
  · rintro ⟨hends, hlen⟩
    refine ⟨hblock hends, ?_, hends⟩
    by_cases hentry : (p.func f).entry = some x
    · exact hlen hentry
    · exact hp.length_preds_of_domEnds hends hentry

/-- Two blocks that lead to each other end each other's dominance, and an endless loop its own; a
predecessor that nothing leads to does not count. -/
theorem inFrontier_crossing : ∃ p, build crossing = .ok p ∧ p.DomEnds 0 1 2 ∧ p.DomEnds 0 2 1 ∧
    p.DomEnds 0 4 4 ∧ 5 ∈ (p.block 3).preds ∧ ¬p.DomEnds 0 1 3 := by
  obtain ⟨p, h, hp⟩ := exists_of_any_toOption (x := build crossing)
    (P := fun p => decide ([(1, 2), (2, 1), (4, 4), (1, 3)].map (fun (b, x) =>
        (FlowFacts.ofFunction p 0).inFrontier b x) = [true, true, true, false] ∧
      (p.func 0).entry = some 0 ∧ 5 ∈ (p.block 3).preds))
    (by decide +kernel)
  simp only [decide_eq_true_eq, List.map_cons, List.map_nil, List.cons.injEq, and_true] at hp
  obtain ⟨⟨h12, h21, h44, h13⟩, hentry, hpred⟩ := hp
  refine ⟨p, h, ((inFrontier_iff h 0 1 2).1 h12).1, ((inFrontier_iff h 0 2 1).1 h21).1,
    ((inFrontier_iff h 0 4 4).1 h44).1, hpred, fun hends => ?_⟩
  have hin := (inFrontier_iff h 0 1 3).2 ⟨hends, fun heq => by rw [hentry] at heq; cases heq⟩
  rw [h13] at hin
  cases hin

/-- A loop around the entry, closed by one edge. -/
def repeatedEntry : List Call :=
  [.declare "main" 0, .const 0, .body 0, .newBlock, .append (.branch 1 0 1), .positionAt 1,
    .append (.ret none)]

/-- The dominance of the entry of `repeatedEntry` ends at itself, and its frontier is empty. -/
theorem not_forall_inFrontier : ¬∀ calls p, build calls = .ok p → ∀ f b x,
    (∃ w, p.EntryPath f w b) → (∃ w, p.EntryPath f w x) →
    ((FlowFacts.ofFunction p f).inFrontier b x = true ↔ p.DomEnds f b x) := by
  intro hall
  obtain ⟨p, h, hp⟩ := exists_of_any_toOption (x := build repeatedEntry)
    (P := fun p => decide ((FlowFacts.ofFunction p 0).inFrontier 0 0 = false ∧
      (p.func 0).entry = some 0 ∧ 0 ∈ (p.block 0).preds))
    (by decide +kernel)
  rw [decide_eq_true_eq] at hp
  obtain ⟨hnot, hentry, hpred⟩ := hp
  have hpath : ∃ w, p.EntryPath 0 w 0 := ⟨[0], List.isChain_singleton 0, hentry.symm, rfl⟩
  have hends : p.DomEnds 0 0 0 :=
    ⟨⟨0, hpred, hpath, hpath, fun w hw => List.mem_of_getLast? hw.ends⟩, fun h => h.2 rfl⟩
  have hin := (hall repeatedEntry p h 0 0 0 hpath hpath).2 hends
  rw [hnot] at hin
  cases hin

end Session

end DataRace
