import DataRace.Proofs.Flow.Dominance
import DataRace.Proofs.Flow.Passes

/-!
# DataRace.Proofs.Flow.DomTree

The tree of the immediate dominators tells dominance.

Below the virtual root the tracks of the passes are the ways of the graph, and
unavoidable is what dominates.  So the parent of a block in the tree is its
immediate dominator.  Every strict dominator is one of the parent, which stands
earlier in the order; what is asked of the tree follows by going up or down it
one step at a time:

* `Closed.exists_immediate`, `Closed.dom_iff` — the passes and dominance;
* `Dominance.parent?_eq_some_iff`, `Dominance.parent?_eq_none_iff` — the parent;
* `Dominance.dominates_iff` — climbing finds the dominators;
* `Dominance.mem_descendants_iff`, `Dominance.nodup_descendants` — the subtree
  lists what a block dominates, once.
-/

namespace DataRace

open Std

namespace FlowGraph

variable {g : FlowGraph} {a b c : Nat} {m : IdMap BlockId}

/-! ## the graph below the virtual root -/

theorem mem_after_iff : b ∈ g.after a ↔
    (if a = g.virtualRoot then b ∈ g.roots else b ∈ g.next a) ∧ b ∈ g.blocks := by
  rw [after, List.mem_filter, List.contains_iff_mem]
  split <;> rfl

namespace Closed

variable (hg : g.Closed)

include hg

theorem ne_virtualRoot (hb : b ∈ g.blocks) : b ≠ g.virtualRoot := Nat.ne_of_lt (hg.lt hb)

theorem rooted_order : RootedOrder g.after g.virtualRoot g.order :=
  rootedOrder_reversePostorder (Nat.lt_succ_self _) fun _ _ hy =>
    Nat.lt_succ_of_lt (hg.lt (mem_after_iff.1 hy).2)

theorem order_eq : g.order = g.virtualRoot :: (PassTables.ofGraph g).order := by
  have h := hg.rooted_order
  obtain ⟨order, heq⟩ := List.head?_eq_some_iff.1 h.head
  have hnodup := h.nodup
  rw [heq, List.nodup_cons] at hnodup
  have hall : ∀ x ∈ order, (x != g.virtualRoot) = true :=
    fun x hx => bne_iff_ne.2 fun hroot => hnodup.1 (hroot ▸ hx)
  rw [PassTables.ofGraph, heq, List.filter_cons_of_neg (by simp), List.filter_eq_self.2 hall]

theorem mem_blocks_of_mem_order (hb : b ∈ (PassTables.ofGraph g).order) : b ∈ g.blocks := by
  have h := hg.rooted_order
  rw [hg.order_eq] at h
  obtain ⟨done, todo, heq⟩ := List.append_of_mem hb
  have hne : b ≠ g.virtualRoot := fun hroot => (List.nodup_cons.1 h.nodup).1 (hroot ▸ hb)
  have hsplit : g.virtualRoot :: (PassTables.ofGraph g).order =
      (g.virtualRoot :: done) ++ b :: todo := by rw [heq, List.cons_append]
  obtain ⟨a, -, hab⟩ := h.entered hsplit hne
  exact (mem_after_iff.1 hab).2

theorem fits : (PassTables.ofGraph g).Fits g.after g.virtualRoot where
  rooted := hg.order_eq ▸ hg.rooted_order
  place_eq x hx := by
    rw [← hg.order_eq] at hx ⊢
    have hget := IdMap.getElem?_foldl_zipIdx hg.rooted_order.nodup 0 ∅ x
    rw [if_pos hx, Nat.zero_add] at hget
    exact IdMap.getD_of_getElem? hget
  mem_before_iff x hx y hy := by
    have hblock := hg.mem_blocks_of_mem_order hx
    have hget : (PassTables.ofGraph g).before.getD x [] = g.before x :=
      IdMap.getD_foldl_insert.trans (if_pos hblock)
    have hmem : y ∈ g.blocks ++ [g.virtualRoot] := by
      rcases List.mem_cons.1 hy with rfl | hy
      · simp
      · exact List.mem_append_left _ (hg.mem_blocks_of_mem_order hy)
    rw [hget, before, List.mem_filter, List.contains_iff_mem, and_iff_right hmem]

theorem length_order_le : (PassTables.ofGraph g).order.length ≤ g.blocks.length := by
  have hnodup := (List.nodup_cons.1 hg.fits.rooted.nodup).2
  exact (hnodup.subperm fun _ hb => hg.mem_blocks_of_mem_order hb).length_le

/-- The passes end with immediate dominators. -/
theorem exists_immediate : ∃ m, g.immediate? = some m ∧
    (PassTables.ofGraph g).Immediate g.after g.virtualRoot m := by
  have hle := hg.length_order_le
  exact PassTables.Stage.initial.settle_spec hg.fits (by omega) (by omega)

/-- A way is a track from the virtual root. -/
theorem track_of_way {w : List Nat} (hw : g.Way w b) :
    Track g.after [g.virtualRoot] (w ++ [g.virtualRoot]) b := by
  induction w generalizing b with
  | nil => cases hw.2.1
  | cons c w ih =>
    obtain ⟨hroot, heq⟩ | ⟨a, v, hv, hab, heq⟩ := hw.cases
    · obtain ⟨rfl, rfl⟩ := List.cons.inj heq
      refine (Track.single (List.mem_singleton_self g.virtualRoot)).cons (mem_after_iff.2 ?_)
      exact ⟨by rwa [if_pos rfl], hg.root_mem hroot⟩
    · obtain ⟨rfl, rfl⟩ := List.cons.inj heq
      have ha := Way.mem_blocks hg hv a (List.mem_of_mem_head? hv.2.1)
      refine (ih hv).cons (mem_after_iff.2 ⟨?_, hg.next_mem ha hab⟩)
      rwa [if_neg (hg.ne_virtualRoot ha)]

/-- A track from the virtual root is a way unless it ends there. -/
theorem way_of_track {w : List Nat} (hw : Track g.after [g.virtualRoot] w b)
    (hb : b ≠ g.virtualRoot) : ∃ v, w = v ++ [g.virtualRoot] ∧ g.Way v b := by
  induction w generalizing b with
  | nil => cases hw.2.1
  | cons c w ih =>
    obtain ⟨hroot, -⟩ | ⟨a, u, hu, hab, heq⟩ := hw.cases
    · exact absurd (List.mem_singleton.1 hroot) hb
    · obtain ⟨rfl, rfl⟩ := List.cons.inj heq
      have hnext := (mem_after_iff.1 hab).1
      split at hnext
      · next hroot =>
        subst hroot
        obtain ⟨-, rfl⟩ | ⟨x, v, -, hx, -⟩ := hu.cases
        · exact ⟨[c], rfl, .single hnext⟩
        · exact absurd rfl (hg.ne_virtualRoot (mem_after_iff.1 hx).2)
      · next hroot =>
        obtain ⟨v, rfl, hv⟩ := ih hu hroot
        exact ⟨c :: v, rfl, hv.cons hnext⟩

theorem mem_order_iff : b ∈ (PassTables.ofGraph g).order ↔ b ∈ g.reached := by
  rw [mem_reached_iff_way hg]
  constructor
  · intro hb
    obtain ⟨w, hw⟩ := hg.fits.exists_track b (List.mem_cons_of_mem _ hb)
    obtain ⟨v, -, hv⟩ := hg.way_of_track hw (hg.fits.ne_start hb)
    exact ⟨v, hv⟩
  · rintro ⟨w, hw⟩
    have hb : b ∈ w := List.mem_of_mem_head? hw.2.1
    have hmem := hg.fits.mem_order_of_track (hg.track_of_way hw) b (List.mem_append_left _ hb)
    exact (List.mem_cons.1 hmem).resolve_left (hg.ne_virtualRoot (Way.mem_blocks hg hw b hb))

/-- What dominates a block is unavoidable below the virtual root. -/
theorem dom_iff (ha : a ≠ g.virtualRoot) (hb : b ∈ g.reached) :
    g.Dom a b ↔ Unavoidable g.after g.virtualRoot a b := by
  rw [Dom.iff_way hg]
  constructor
  · rintro ⟨-, -, hall⟩ w hw
    obtain ⟨v, rfl, hv⟩ := hg.way_of_track hw (hg.ne_virtualRoot (hg.mem_blocks b hb))
    exact List.mem_append_left _ (hall v hv)
  · intro h
    have hall (w : List BlockId) (hw : g.Way w b) : a ∈ w := by
      have hmem := List.mem_append.1 (h _ (hg.track_of_way hw))
      exact hmem.resolve_right fun hr => ha (List.mem_singleton.1 hr)
    obtain ⟨w, hw⟩ := (mem_reached_iff_way hg).1 hb
    obtain ⟨u, v, rfl⟩ := List.append_of_mem (hall w hw)
    exact ⟨⟨a :: v, hw.right_of_append⟩, ⟨_, hw⟩, hall⟩

/-- A dominator stands earlier in the order. -/
theorem place_lt_of_dom (h : g.Dom a b) (hne : a ≠ b) :
    (PassTables.ofGraph g).place a < (PassTables.ofGraph g).place b := by
  have ha := List.mem_cons_of_mem g.virtualRoot (hg.mem_order_iff.2 h.reached_left)
  have hb := List.mem_cons_of_mem g.virtualRoot (hg.mem_order_iff.2 h.reached)
  have hroot := hg.ne_virtualRoot (hg.mem_blocks a h.reached_left)
  have hle := hg.fits.place_le hb ((hg.dom_iff hroot h.reached).1 h)
  exact Nat.lt_of_le_of_ne hle fun heq => hne (hg.fits.place_inj ha hb heq)

end Closed

/-- A strict dominator that all other strict dominators dominate. -/
structure ImmDom (g : FlowGraph) (a b : BlockId) : Prop where
  dom : g.Dom a b
  ne : a ≠ b
  of_dom : ∀ {c}, g.Dom c b → c ≠ b → g.Dom c a

theorem ImmDom.unique (h : g.ImmDom a b) (h' : g.ImmDom c b) : a = c :=
  (h'.of_dom h.dom h.ne).antisymm (h.of_dom h'.dom h'.ne)

/-- Siblings do not dominate each other. -/
theorem ImmDom.eq_of_dom {d : Nat} (ha : g.ImmDom d a) (hb : g.ImmDom d b) (h : g.Dom a b) :
    a = b := by
  by_contra hne
  exact ha.ne (ha.dom.antisymm (hb.of_dom h hne))

end FlowGraph

/-! ## the tree -/

namespace Dominance

open FlowGraph

variable {g : FlowGraph} {post : Bool} {a b c : Nat}

theorem parents_get {m : IdMap BlockId} (hm : g.immediate? = some m) :
    (ofGraph post g).parents[b]? =
      if b ∈ g.blocks then m[b]?.filter (· != g.virtualRoot) else none := by
  simp only [ofGraph, hm, Option.getD_some]
  rw [IdMap.getElem?_foldl_insert (f := fun b => m[b]?.filter (· != g.virtualRoot))
    (fun m x d hd => by rw [hd]) (fun m x hd => by rw [hd]), TreeMap.getElem?_emptyc,
    Option.or_none]

variable (hg : g.Closed)

include hg

/-- The parent of a block is its immediate dominator. -/
theorem immDom_of_parent? (h : (ofGraph post g).parent? b = some a) : g.ImmDom a b := by
  obtain ⟨m, hm, himm⟩ := hg.exists_immediate
  rw [parent?, parents_get hm] at h
  split at h
  · next hb =>
    obtain ⟨hget, hne⟩ := Option.filter_eq_some_iff.1 h
    have hne := bne_iff_ne.1 hne
    have hmem {x : Nat} (hx : x ∈ m) (hroot : x ≠ g.virtualRoot) : x ∈ g.reached :=
      hg.mem_order_iff.1 ((List.mem_cons.1 (himm.listed x hx)).resolve_left hroot)
    obtain ⟨ha, hup⟩ := himm.up hget (hg.ne_virtualRoot hb)
    have hb := hmem (IdMap.mem_iff_exists_getElem?.2 ⟨a, hget⟩) (hg.ne_virtualRoot hb)
    refine ⟨(hg.dom_iff hne hb).2 (himm.unavoidable hget), fun heq => ?_, fun {c} hc hcb => ?_⟩
    · exact Nat.lt_irrefl _ (heq ▸ hup)
    · have hcne := hg.ne_virtualRoot (hg.mem_blocks c hc.reached_left)
      exact (hg.dom_iff hcne (hmem ha hne)).2 (himm.keeps hget ((hg.dom_iff hcne hb).1 hc) hcb)
  · cases h

/-- A block that is dominated strictly has a parent. -/
theorem exists_parent? (post : Bool) (h : g.Dom c b) (hne : c ≠ b) :
    ∃ a, (ofGraph post g).parent? b = some a := by
  obtain ⟨m, hm, himm⟩ := hg.exists_immediate
  have hb := hg.mem_blocks b h.reached
  obtain ⟨a, hget⟩ := IdMap.mem_iff_exists_getElem?.1
    (himm.mem b (List.mem_cons_of_mem _ (hg.mem_order_iff.2 h.reached)))
  have hc := hg.ne_virtualRoot (hg.mem_blocks c h.reached_left)
  refine ⟨a, ?_⟩
  rw [parent?, parents_get hm, if_pos hb]
  refine Option.filter_eq_some_iff.2 ⟨hget, bne_iff_ne.2 ?_⟩
  rintro rfl
  have hroot := himm.keeps hget ((hg.dom_iff hc h.reached).1 h) hne
  exact hc (List.mem_singleton.1 (hroot _ (.single (List.mem_singleton_self _))))

theorem parent?_eq_some_iff : (ofGraph post g).parent? b = some a ↔ g.ImmDom a b := by
  refine ⟨immDom_of_parent? hg, fun h => ?_⟩
  obtain ⟨d, hd⟩ := exists_parent? hg post h.dom h.ne
  exact (immDom_of_parent? hg hd).unique h ▸ hd

theorem parent?_eq_none_iff : (ofGraph post g).parent? b = none ↔ ∀ a, g.Dom a b → a = b := by
  constructor
  · intro hnone a h
    by_contra hne
    obtain ⟨d, hd⟩ := exists_parent? hg post h hne
    rw [hnone] at hd
    cases hd
  · intro hall
    refine Option.eq_none_iff_forall_ne_some.2 fun a ha => ?_
    have h := immDom_of_parent? hg ha
    exact h.ne (hall a h.dom)

theorem isReachable_iff : (ofGraph post g).isReachable b = true ↔ b ∈ g.reached := by
  rw [← hg.mem_order_iff, isReachable, ofGraph, TreeSet.contains_ofList, List.contains_iff_mem]
  rfl

/-! ## depths -/

omit hg in
/-- Depths that are filled in from the top down. -/
theorem getD_foldl_depth {parents : IdMap BlockId} {place : BlockId → Nat}
    (hup : ∀ {b a : Nat}, parents[b]? = some a → place a < place b) {order : List BlockId}
    (horder : order.Pairwise (place · < place ·)) :
    let depths : IdMap Nat := order.foldl (fun m b =>
      match parents[b]? with
      | some d => m.insert b (m.getD d 0 + 1)
      | none => m) ∅
    ∀ b ∈ order, ∀ a, parents[b]? = some a → depths.getD b 0 = depths.getD a 0 + 1 := by
  induction order using List.reverseRecOn with
  | nil => exact fun b hb => absurd hb List.not_mem_nil
  | append_singleton order x ih =>
    obtain ⟨horder, -, hlast⟩ := List.pairwise_append.1 horder
    intro depths b hb a ha
    have hlt {y : Nat} (hy : y ∈ order) : place y < place x := hlast y hy x List.mem_cons_self
    simp only [depths, List.foldl_append, List.foldl_cons, List.foldl_nil]
    cases hx : parents[x]? with
    | none =>
      have hb : b ∈ order := by
        rcases List.mem_append.1 hb with hb | hb
        · exact hb
        · rw [List.mem_singleton.1 hb, hx] at ha
          cases ha
      exact ih horder b hb a ha
    | some d =>
      dsimp only
      rw [IdMap.getD_insert, IdMap.getD_insert]
      rcases List.mem_append.1 hb with hb | hb
      · have hxb : x ≠ b := fun heq => Nat.lt_irrefl _ (heq ▸ hlt hb)
        have hxa : x ≠ a := fun heq => Nat.lt_asymm (heq ▸ hlt hb) (hup ha)
        rw [if_neg hxb, if_neg hxa, ih horder b hb a ha]
      · obtain rfl := List.mem_singleton.1 hb
        obtain rfl := Option.some.inj (hx.symm.trans ha)
        have hbd : b ≠ d := fun heq => Nat.lt_irrefl _ (heq ▸ hup hx)
        rw [if_pos rfl, if_neg hbd]

theorem depthOf_eq (h : g.ImmDom a b) :
    (ofGraph post g).depthOf b = (ofGraph post g).depthOf a + 1 := by
  have hup {b a : Nat} (ha : (ofGraph post g).parents[b]? = some a) :
      (PassTables.ofGraph g).place a < (PassTables.ofGraph g).place b :=
    have h := immDom_of_parent? hg ha
    hg.place_lt_of_dom h.dom h.ne
  exact getD_foldl_depth hup (List.pairwise_cons.1 hg.fits.pairwise_place).2 b
    (hg.mem_order_iff.2 h.dom.reached) a ((parent?_eq_some_iff hg).2 h)

/-- A strict dominator is one of the immediate dominator. -/
theorem exists_immDom (h : g.Dom a b) (hne : a ≠ b) : ∃ d, g.ImmDom d b ∧ g.Dom a d := by
  obtain ⟨d, hd⟩ := exists_parent? hg false h hne
  have hd := immDom_of_parent? hg hd
  exact ⟨d, hd, hd.of_dom h hne⟩

/-- What holds of a block and is handed down the tree holds of all blocks it dominates. -/
theorem dom_induction {P : BlockId → Prop} (hself : P a)
    (hstep : ∀ d b, g.ImmDom d b → g.Dom a d → P d → P b) : ∀ b, g.Dom a b → P b := by
  intro b h
  induction hplace : (PassTables.ofGraph g).place b using Nat.strongRecOn generalizing b with
  | ind n ih =>
    by_cases hne : a = b
    · exact hne ▸ hself
    · obtain ⟨d, hd, had⟩ := exists_immDom hg h hne
      exact hstep d b hd had (ih _ (hplace ▸ hg.place_lt_of_dom hd.dom hd.ne) d had rfl)

theorem depthOf_lt (h : g.Dom a b) (hne : a ≠ b) :
    (ofGraph post g).depthOf a < (ofGraph post g).depthOf b := by
  refine dom_induction hg (P := fun b => a ≠ b → _ < (ofGraph post g).depthOf b)
    (fun hne => absurd rfl hne) (fun d b hd _ ih _ => ?_) b h hne
  rw [depthOf_eq hg hd, Nat.lt_succ_iff_lt_or_eq]
  by_cases heq : a = d
  · exact .inr (heq ▸ rfl)
  · exact .inl (ih heq)

/-- Only a block itself is no deeper among those it dominates. -/
theorem eq_of_depthOf_le (h : g.Dom a b)
    (hle : (ofGraph post g).depthOf b ≤ (ofGraph post g).depthOf a) : b = a := by
  by_contra hne
  exact Nat.not_lt_of_le hle (depthOf_lt hg h (Ne.symm hne))

theorem dom_of_climb {depth steps : Nat} (hb : b ∈ g.reached)
    (h : (ofGraph post g).climb depth steps b = some a) : g.Dom a b := by
  induction steps generalizing b with
  | zero => exact Option.some.inj h ▸ .refl hb
  | succ steps ih =>
    rw [climb] at h
    split at h
    · obtain ⟨d, hd, h⟩ := Option.bind_eq_some_iff.1 h
      have hd := immDom_of_parent? hg hd
      exact (ih hd.dom.reached_left h).trans hd.dom
    · exact Option.some.inj h ▸ .refl hb

/-- One climbs to every dominator. -/
theorem climb_of_dom {steps : Nat} (h : g.Dom a b)
    (hsteps : (ofGraph post g).depthOf b ≤ (ofGraph post g).depthOf a + steps) :
    (ofGraph post g).climb ((ofGraph post g).depthOf a) steps b = some a := by
  induction steps generalizing b with
  | zero => exact congrArg some (eq_of_depthOf_le hg h hsteps)
  | succ steps ih =>
    rw [climb]
    split
    · next hlt =>
      obtain ⟨d, hd, had⟩ := exists_immDom hg h fun heq => Nat.lt_irrefl _ (heq ▸ hlt)
      rw [(parent?_eq_some_iff hg).2 hd, Option.bind_some]
      rw [depthOf_eq hg hd] at hsteps
      exact ih had (by omega)
    · next hle => exact congrArg some (eq_of_depthOf_le hg h (Nat.le_of_not_lt hle))

theorem dominates_iff : (ofGraph post g).dominates a b = true ↔ g.Dom a b := by
  rw [dominates, Bool.and_eq_true, Bool.and_eq_true, isReachable_iff hg, isReachable_iff hg,
    beq_iff_eq]
  constructor
  · rintro ⟨⟨hb, -⟩, hclimb⟩
    exact dom_of_climb hg hb hclimb
  · intro h
    exact ⟨⟨h.reached, h.reached_left⟩, climb_of_dom hg h (Nat.le_add_left ..)⟩

/-- Dominance between instructions: by places in one block, by blocks otherwise. -/
theorem dominatesInst_iff {p : Program} {i j : InstId} :
    (ofGraph post g).dominatesInst p i j = true ↔
      if p.blockOf i = p.blockOf j then
        if post then (p.inst j).pos ≤ (p.inst i).pos else (p.inst i).pos ≤ (p.inst j).pos
      else
        g.Dom (p.blockOf i) (p.blockOf j) := by
  have hpost : (ofGraph post g).post = post := rfl
  rw [dominatesInst, ← Program.blockOf.eq_1, ← Program.blockOf.eq_1, hpost]
  split
  · split <;> exact decide_eq_true_iff
  · exact dominates_iff hg

/-! ## descendants -/

theorem mem_children_iff : c ∈ (ofGraph post g).children b ↔ g.ImmDom b c := by
  rw [children, List.mem_filter, beq_iff_eq, parent?_eq_some_iff hg, and_iff_right_iff_imp]
  exact fun h => hg.mem_blocks c h.dom.reached

/-- What a block dominates strictly is dominated by one of its children. -/
theorem exists_child (h : g.Dom b c) (hne : b ≠ c) : ∃ x, g.ImmDom b x ∧ g.Dom x c := by
  refine dom_induction hg (P := fun c => b ≠ c → ∃ x, g.ImmDom b x ∧ g.Dom x c)
    (fun hne => absurd rfl hne) (fun d c hd _ ih _ => ?_) c h hne
  by_cases heq : b = d
  · exact ⟨c, heq ▸ hd, .refl hd.dom.reached⟩
  · obtain ⟨x, hx, hxd⟩ := ih heq
    exact ⟨x, hx, hxd.trans hd.dom⟩

theorem mem_subtree_succ_iff {depth : Nat} : c ∈ (ofGraph post g).subtree (depth + 1) b ↔
    c = b ∨ ∃ x, g.ImmDom b x ∧ c ∈ (ofGraph post g).subtree depth x := by
  simp only [subtree, List.mem_cons, List.mem_flatMap, List.mem_reverse, mem_children_iff hg]

theorem dom_of_mem_subtree {depth : Nat} (h : c ∈ (ofGraph post g).subtree depth b) :
    c = b ∨ g.Dom b c := by
  induction depth generalizing b with
  | zero => cases h
  | succ depth ih =>
    rw [mem_subtree_succ_iff hg] at h
    obtain rfl | ⟨x, hx, hc⟩ := h
    · exact .inl rfl
    · obtain rfl | hc := ih hc
      · exact .inr hx.dom
      · exact .inr (hx.dom.trans hc)

/-- The subtree goes deep enough. -/
theorem mem_subtree_of_dom {depth : Nat} (h : g.Dom b c)
    (hdepth : (PassTables.ofGraph g).place c < (PassTables.ofGraph g).place b + depth) :
    c ∈ (ofGraph post g).subtree depth b := by
  induction depth generalizing b with
  | zero =>
    by_cases heq : b = c
    · exact absurd hdepth (heq ▸ Nat.lt_irrefl _)
    · exact absurd hdepth (Nat.lt_asymm (hg.place_lt_of_dom h heq))
  | succ depth ih =>
    rw [mem_subtree_succ_iff hg]
    by_cases heq : c = b
    · exact .inl heq
    · obtain ⟨x, hx, hxc⟩ := exists_child hg h (Ne.symm heq)
      have hlt := hg.place_lt_of_dom hx.dom hx.ne
      exact .inr ⟨x, hx, ih hxc (by omega)⟩

theorem nodup_subtree (depth : Nat) (b : BlockId) : ((ofGraph post g).subtree depth b).Nodup := by
  induction depth generalizing b with
  | zero => exact List.nodup_nil
  | succ depth ih =>
    have hdom {x c : BlockId} (hx : g.ImmDom b x) (hc : c ∈ (ofGraph post g).subtree depth x) :
        g.Dom x c := by
      obtain rfl | h := dom_of_mem_subtree hg hc
      · exact .refl hx.dom.reached
      · exact h
    have hchildren : ((ofGraph post g).children b).Nodup := hg.nodup.filter _
    refine List.nodup_cons.2 ⟨fun hb => ?_, List.nodup_flatMap.2 ⟨fun x _ => ih x, ?_⟩⟩
    · obtain ⟨x, hx, hb⟩ := List.mem_flatMap.1 hb
      have hx := (mem_children_iff hg).1 (List.mem_reverse.1 hx)
      exact hx.ne (hx.dom.antisymm (hdom hx hb))
    · refine (List.nodup_reverse.2 hchildren).imp_of_mem fun {x y} hx hy hne => ?_
      have hx := (mem_children_iff hg).1 (List.mem_reverse.1 hx)
      have hy := (mem_children_iff hg).1 (List.mem_reverse.1 hy)
      intro c hcx hcy
      -- the dominators of `c` are ordered, and siblings are not
      rcases (hdom hx hcx).total (hdom hy hcy) with h | h
      · exact hne (hx.eq_of_dom hy h)
      · exact hne (hy.eq_of_dom hx h).symm

theorem nodup_descendants (b : BlockId) : ((ofGraph post g).descendants b).Nodup := by
  rw [descendants]
  split
  · exact nodup_subtree hg _ b
  · exact List.nodup_nil

theorem mem_descendants_iff (hb : b ∈ g.blocks) :
    c ∈ (ofGraph post g).descendants b ↔ c = b ∨ g.Dom b c := by
  have hmem : (ofGraph post g).blocks.contains b = true := List.contains_iff_mem.2 hb
  rw [descendants, if_pos hmem]
  refine ⟨dom_of_mem_subtree hg, fun h => ?_⟩
  obtain rfl | h := h
  · obtain ⟨depth, hdepth⟩ := Nat.exists_eq_add_of_lt (List.length_pos_of_mem hb)
    change c ∈ (ofGraph post g).subtree g.blocks.length c
    rw [hdepth, mem_subtree_succ_iff hg]
    exact .inl rfl
  · refine mem_subtree_of_dom hg h ?_
    have hb := hg.mem_order_iff.2 h.reached_left
    have hc := List.mem_cons_of_mem g.virtualRoot (hg.mem_order_iff.2 h.reached)
    have hpos := (List.pairwise_cons.1 hg.fits.pairwise_place).1 b hb
    have hlt := List.idxOf_lt_length_of_mem hc
    rw [← hg.fits.place_eq c hc, List.length_cons] at hlt
    have hle : (PassTables.ofGraph g).order.length ≤ (ofGraph post g).blocks.length :=
      hg.length_order_le
    omega

end Dominance

/-! ## the trees of a function -/

namespace Program

variable {p : Program} {f : FuncId} {a b c : Nat}

theorem Linked.isReachable_iff (hp : p.Linked) :
    (Dominance.dominators p f).isReachable b = true ↔ b ∈ (FlowGraph.forward p f).reached :=
  Dominance.isReachable_iff (hp.closed_forward f)

theorem Linked.dominates_iff (hp : p.Linked) :
    (Dominance.dominators p f).dominates a b = true ↔ (FlowGraph.forward p f).Dom a b :=
  Dominance.dominates_iff (hp.closed_forward f)

theorem Finished.dominates_iff (hp : p.Finished) :
    (Dominance.dominators p f).dominates a b = true ↔ (FlowGraph.forward p f).Dom a b :=
  hp.linked.dominates_iff

theorem Finished.mem_descendants_iff (hp : p.Finished) (hb : b ∈ (p.func f).blocks) :
    c ∈ (Dominance.dominators p f).descendants b ↔ c = b ∨ (FlowGraph.forward p f).Dom b c :=
  Dominance.mem_descendants_iff (hp.linked.closed_forward f) hb

end Program

end DataRace
