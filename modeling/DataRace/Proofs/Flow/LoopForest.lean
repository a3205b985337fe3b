import DataRace.Proofs.Flow.BlockPath
import DataRace.Proofs.Flow.Loop

/-!
# DataRace.Proofs.Flow.LoopForest

The loops of a function are its natural loops, and they form a forest.

A natural loop is said by paths: the header, and what a path leads from to a
latch without entering the header (`Program.InLoop`).  Loops are compared by
their sizes only; that this is right is because loops that share a block are
nested, so the smaller of two loops around a block lies in the larger.

* `Loop.Natural.mem_blocks_iff` — the blocks of a loop by paths;
* `Loops.parent_spec` — the parent is the smallest loop strictly around;
* `Loops.around_header` — the loops around a header are the loop and those around
  the header of its parent, which makes the depth their number;
* `Session.loops_forest` — all of it for what is built.
-/

namespace DataRace

open Std

/-! ## natural loops by paths -/

namespace Program

/-- A reachable block that leads to a header and that the header dominates. -/
structure IsLatch (p : Program) (f : FuncId) (h a : BlockId) : Prop where
  edge : h ∈ (p.block a).succs
  dom : PathDom (p.EntryPath f) h a

/-- The blocks of the natural loop of a header: the header, and every reachable block with a path to
a latch that does not enter the header. -/
def InLoop (p : Program) (f : FuncId) (h b : BlockId) : Prop :=
  b = h ∨ (∃ w, p.EntryPath f w b) ∧ ∃ a w, p.IsLatch f h a ∧ p.BlockPath w b a ∧ h ∉ w

variable {p : Program} {f : FuncId} {a h : Nat}

theorem Linked.isLatch_iff (hp : p.Linked) : p.IsLatch f h a ↔
    h ∈ (p.block a).succs ∧ (FlowGraph.forward p f).Dom h a := by
  rw [← hp.pathDom_iff]
  exact ⟨fun hl => ⟨hl.edge, hl.dom⟩, fun hl => ⟨hl.1, hl.2⟩⟩

end Program

namespace Loop.Natural

variable {p : Program} {f : FuncId} {l : Loop} {w : List BlockId} {a b : Nat}

/-- What leads to a block of the loop without entering the header is in the loop. -/
theorem mem_of_blockPath (hp : p.Linked) (hl : l.Natural p f) (hw : p.BlockPath w b a)
    (hb : b ∈ (FlowGraph.forward p f).reached) (ha : a ∈ l.blocks) (hnot : l.header ∉ w) :
    b ∈ l.blocks := by
  induction w generalizing b with
  | nil => cases hw.starts
  | cons c w ih =>
    obtain ⟨hchain, hstarts, hends⟩ := hw
    obtain rfl : c = b := Option.some.inj hstarts
    cases w with
    | nil =>
      obtain rfl : c = a := Option.some.inj hends
      exact ha
    | cons d w =>
      obtain ⟨hedge, hchain⟩ := List.isChain_cons_cons.1 hchain
      have hd := FlowGraph.mem_reached_of_next hb hedge (hp.succ_spec hedge).2.1
      have hrest : l.header ∉ d :: w := fun hmem => hnot (List.mem_cons_of_mem c hmem)
      have hmem := ih ⟨hchain, rfl, hends⟩ hd hrest
      exact hl.closed hmem (fun heq => hrest (heq ▸ List.mem_cons_self)) hb hedge

/-- The blocks of a loop are those of the natural loop of its header. -/
theorem mem_blocks_iff (hp : p.Linked) (hl : l.Natural p f) :
    b ∈ l.blocks ↔ p.InLoop f l.header b := by
  have hlatch {a : Nat} : a ∈ l.latches ↔ p.IsLatch f l.header a :=
    hl.mem_latches_iff.trans hp.isLatch_iff.symm
  constructor
  · intro hb
    refine (hl.least (P := fun b => b = l.header ∨
      ∃ a w, p.IsLatch f l.header a ∧ p.BlockPath w b a ∧ l.header ∉ w)
      (.inl rfl) (fun a ha => ?_) (fun a b _ hne ih _ hedge => ?_) b hb).imp_right fun h =>
        ⟨hp.exists_entryPath_iff.2 (hl.dom hb).reached, h⟩
    · by_cases heq : a = l.header
      · exact .inl heq
      · refine .inr ⟨a, [a], hlatch.1 ha, .single p a, ?_⟩
        exact fun hmem => heq (List.mem_singleton.1 hmem).symm
    · by_cases heq : a = l.header
      · exact .inl heq
      · obtain ⟨c, w, hc, hw, hnot⟩ := ih.resolve_left hne
        refine .inr ⟨c, a :: w, hc, hw.cons hedge, ?_⟩
        exact fun hmem => (List.mem_cons.1 hmem).elim (fun h => heq h.symm) hnot
  · rintro (rfl | ⟨hb, a, w, ha, hw, hnot⟩)
    · exact hl.header_mem
    · exact hl.mem_of_blockPath hp hw (hp.exists_entryPath_iff.1 hb)
        (hl.mem_of_latch (hlatch.2 ha)) hnot

end Loop.Natural

/-! ## loops inside loops -/

namespace Loop

variable {ks ls : Array Loop}

/-- The choice of a smallest loop reads the blocks of the loops only. -/
theorem smallest?_congr (h : ∀ j, (ks.getD j default).blocks = (ls.getD j default).blocks)
    (js : List LoopId) : smallest? ks js = smallest? ls js := by
  simp only [smallest?, h]

theorem parentOf_congr (hsize : ks.size = ls.size)
    (hheader : ∀ j, (ks.getD j default).header = (ls.getD j default).header)
    (hblocks : ∀ j, (ks.getD j default).blocks = (ls.getD j default).blocks) (i : LoopId) :
    parentOf ks i = parentOf ls i := by
  simp only [parentOf, smallest?_congr hblocks, contains, hsize, hheader, hblocks]

theorem chainLength_congr (h : ∀ j, (ks.getD j default).parent = (ls.getD j default).parent)
    (bound : Nat) (i : Option LoopId) : chainLength ks bound i = chainLength ls bound i := by
  induction bound generalizing i with
  | zero => rfl
  | succ bound ih =>
    cases i with
    | none => rfl
    | some i => rw [chainLength, chainLength, h, ih]

/-- What a map leaves alone in each loop is what it was, beyond the end as well. -/
theorem field_getD_mapIdx {α : Type} (field : Loop → α) {g : Nat → Loop → Loop}
    (h : ∀ i l, field (g i l) = field l) (j : LoopId) :
    field ((ls.mapIdx g).getD j default) = field (ls.getD j default) := by
  by_cases hj : j < ls.size
  · rw [Table.getD_mapIdx (d := default) hj, h]
  · simp only [Array.getD, Array.size_mapIdx, dif_neg hj]

end Loop

namespace Loops

variable {p : Program} {f : FuncId} {i j k : LoopId} {b : Nat}

/-- One loop lies strictly inside another. -/
def Inside (ls : Loops) (i j : LoopId) : Prop :=
  (∀ b ∈ (ls.get i).blocks, b ∈ (ls.get j).blocks) ∧ ∃ b ∈ (ls.get j).blocks, b ∉ (ls.get i).blocks

/-- The loop that lies in all the loops of a kind, one of them itself. -/
structure Smallest (ls : Loops) (P : LoopId → Prop) (k : LoopId) : Prop where
  lt : k < ls.loops.size
  mem : P k
  least : ∀ j < ls.loops.size, P j → ∀ b ∈ (ls.get k).blocks, b ∈ (ls.get j).blocks

theorem Inside.trans {ls : Loops} (hij : ls.Inside i j) (hjk : ls.Inside j k) : ls.Inside i k := by
  obtain ⟨hsub, b, hb, hnot⟩ := hij
  exact ⟨fun c hc => hjk.1 c (hsub c hc), b, hjk.1 b hb, hnot⟩

theorem Smallest.congr {ls : Loops} {P Q : LoopId → Prop} (h : ∀ j < ls.loops.size, P j ↔ Q j) :
    ls.Smallest P k ↔ ls.Smallest Q k :=
  ⟨fun ⟨hk, hmem, hleast⟩ => ⟨hk, (h k hk).1 hmem, fun j hj hq => hleast j hj ((h j hj).2 hq)⟩,
    fun ⟨hk, hmem, hleast⟩ => ⟨hk, (h k hk).2 hmem, fun j hj hp => hleast j hj ((h j hj).1 hp)⟩⟩

/-- The headers of the loops are the blocks with a latch, in the order of the blocks. -/
theorem headers_eq : (p.loops f).loops.toList.map (·.header) =
    (p.func f).blocks.filter fun h => !(Loop.latchesOf p (.dominators p f) h).isEmpty := by
  refine List.ext_getElem? fun j => ?_
  simp only [Program.loops, ofFunction, List.getElem?_map, Array.getElem?_toList,
    Array.getElem?_mapIdx, List.getElem?_toArray, Option.map_map]
  exact (congrFun Option.map_id _).trans rfl

/-- The loops get their parents first and then their depths. -/
theorem exists_plain (p : Program) (f : FuncId) : ∃ plain nested : Array Loop,
    nested = plain.mapIdx (fun i l => { l with parent := Loop.parentOf plain i }) ∧
    (p.loops f).loops = nested.mapIdx fun i l =>
      { l with depth := Loop.chainLength nested nested.size (some i) } := ⟨_, _, rfl, rfl⟩

theorem parent_eq (hi : i < (p.loops f).loops.size) :
    ((p.loops f).get i).parent = Loop.parentOf (p.loops f).loops i := by
  obtain ⟨plain, nested, hnested, hloops⟩ := exists_plain p f
  have hkept {α : Type} (field : Loop → α) (hp : ∀ l o, field { l with parent := o } = field l)
      (hd : ∀ l n, field { l with depth := n } = field l) (j : LoopId) :
      field ((p.loops f).loops.getD j default) = field (plain.getD j default) := by
    rw [hloops, Loop.field_getD_mapIdx field fun i l => hd l _, hnested]
    exact Loop.field_getD_mapIdx field (fun i l => hp l _) j
  have hsize : (p.loops f).loops.size = plain.size := by
    rw [hloops, Array.size_mapIdx, hnested, Array.size_mapIdx]
  rw [Loop.parentOf_congr hsize (hkept Loop.header (fun _ _ => rfl) fun _ _ => rfl)
    (hkept Loop.blocks (fun _ _ => rfl) fun _ _ => rfl), get, hloops,
    Loop.field_getD_mapIdx Loop.parent, hnested, Table.getD_mapIdx (d := default) (hsize ▸ hi)]
  exact fun _ _ => rfl

theorem depth_eq (hi : i < (p.loops f).loops.size) : ((p.loops f).get i).depth =
    Loop.chainLength (p.loops f).loops (p.loops f).loops.size (some i) := by
  obtain ⟨-, nested, -, hloops⟩ := exists_plain p f
  have hparent (j : LoopId) : ((p.loops f).loops.getD j default).parent =
      (nested.getD j default).parent := by
    rw [hloops, Loop.field_getD_mapIdx Loop.parent]
    exact fun _ _ => rfl
  have hsize : nested.size = (p.loops f).loops.size := by rw [hloops, Array.size_mapIdx]
  rw [Loop.chainLength_congr hparent, ← hsize, get, hloops,
    Table.getD_mapIdx (d := default) (hsize ▸ hi)]

theorem header_inj (hp : p.Linked) (hi : i < (p.loops f).loops.size)
    (hj : j < (p.loops f).loops.size)
    (h : ((p.loops f).get i).header = ((p.loops f).get j).header) : i = j := by
  have hnodup : ((p.loops f).loops.toList.map (·.header)).Nodup :=
    headers_eq ▸ hp.nodup_blocks.filter _
  have hget {i : LoopId} (hi : i < (p.loops f).loops.size) :
      ((p.loops f).loops.toList.map (·.header))[i]? = some ((p.loops f).get i).header := by
    rw [List.getElem?_map, Array.getElem?_toList, get, Array.getD_eq_getD_getElem?,
      Array.getElem?_eq_getElem hi]
    rfl
  have hlt : i < ((p.loops f).loops.toList.map (·.header)).length := by
    rwa [List.length_map, Array.length_toList]
  exact (List.getElem?_inj hlt hnodup).1 (((hget hi).trans (congrArg some h)).trans (hget hj).symm)

section

variable (hp : p.Linked) (hi : i < (p.loops f).loops.size) (hj : j < (p.loops f).loops.size)
include hp hi hj

/-- A loop lies strictly inside the others that hold its header. -/
theorem inside_iff : (p.loops f).Inside i j ↔
    i ≠ j ∧ ((p.loops f).get i).header ∈ ((p.loops f).get j).blocks := by
  have hni := natural_get hp hi
  have hnj := natural_get hp hj
  constructor
  · rintro ⟨hsub, b, hb, hnot⟩
    refine ⟨?_, hsub _ hni.header_mem⟩
    rintro rfl
    exact hnot hb
  · rintro ⟨hne, hmem⟩
    have hdom := hnj.dom hmem
    refine ⟨hni.subset_of_dom hnj hdom hni.header_mem hmem, _, hnj.header_mem, fun hback => hne ?_⟩
    exact header_inj hp hi hj ((hni.dom hback).antisymm hdom)

/-- Loops with the same blocks are the same. -/
theorem eq_of_subset (hij : ∀ b ∈ ((p.loops f).get i).blocks, b ∈ ((p.loops f).get j).blocks)
    (hji : ∀ b ∈ ((p.loops f).get j).blocks, b ∈ ((p.loops f).get i).blocks) : i = j := by
  by_contra hne
  have hmem := hij _ (natural_get hp hi).header_mem
  obtain ⟨-, b, hb, hnot⟩ := (inside_iff hp hi hj).2 ⟨hne, hmem⟩
  exact hnot (hji b hb)

/-- Two loops are apart, or one lies inside the other. -/
theorem apart_or_inside (hne : i ≠ j) :
    (∀ b ∈ ((p.loops f).get i).blocks, b ∉ ((p.loops f).get j).blocks) ∨
      (p.loops f).Inside i j ∨ (p.loops f).Inside j i := by
  have hni := natural_get hp hi
  have hnj := natural_get hp hj
  refine or_iff_not_imp_left.2 fun hshared => ?_
  push Not at hshared
  obtain ⟨b, hbi, hbj⟩ := hshared
  rcases (hnj.dom hbj).total (hni.dom hbi) with hdom | hdom
  · exact .inl ((inside_iff hp hi hj).2 ⟨hne, hnj.mem_of_dom hdom (hni.dom hbi) hbj⟩)
  · exact .inr ((inside_iff hp hj hi).2 ⟨hne.symm, hni.mem_of_dom hdom (hnj.dom hbj) hbi⟩)

end

/-- The smallest of some loops around a block lies in all of them. -/
theorem smallest?_eq_some_iff (hp : p.Linked) {js : List LoopId}
    (hjs : ∀ j ∈ js, j ∈ (p.loops f).around b) :
    Loop.smallest? (p.loops f).loops js = some k ↔ (p.loops f).Smallest (· ∈ js) k := by
  have hleast {k j : LoopId} (hk : k ∈ js) (hj : j ∈ js)
      (hsize : ((p.loops f).get k).blocks.size ≤ ((p.loops f).get j).blocks.size) :
      ∀ c ∈ ((p.loops f).get k).blocks, c ∈ ((p.loops f).get j).blocks := by
    obtain ⟨hk, hbk⟩ := mem_around_iff.1 (hjs k hk)
    obtain ⟨hj, hbj⟩ := mem_around_iff.1 (hjs j hj)
    exact (natural_get hp hk).subset_of_size_le (natural_get hp hj) hbk hbj hsize
  obtain ⟨hnone, hsome⟩ := Loop.smallest?_spec (p.loops f).loops js
  have hspec {k : LoopId} (h : Loop.smallest? (p.loops f).loops js = some k) :
      (p.loops f).Smallest (· ∈ js) k := by
    obtain ⟨hk, hle⟩ := hsome h
    exact ⟨(mem_around_iff.1 (hjs k hk)).1, hk, fun j _ hj => hleast hk hj (hle j hj)⟩
  refine ⟨hspec, fun h => ?_⟩
  cases hbest : Loop.smallest? (p.loops f).loops js with
  | none =>
    rw [hnone hbest] at h
    cases h.mem
  | some j =>
    have hj := hspec hbest
    rw [eq_of_subset hp hj.lt h.lt (hj.least k h.lt h.mem) (h.least j hj.lt hj.mem)]

theorem smallest?_eq_none_iff {js : List LoopId} :
    Loop.smallest? (p.loops f).loops js = none ↔ js = [] := by
  refine ⟨(Loop.smallest?_spec _ _).1, ?_⟩
  rintro rfl
  rfl

/-- The parent is the smallest loop strictly around, if there is one. -/
theorem parent_spec (hp : p.Linked) (hi : i < (p.loops f).loops.size) :
    (∀ k, ((p.loops f).get i).parent = some k ↔ (p.loops f).Smallest ((p.loops f).Inside i) k) ∧
      (((p.loops f).get i).parent = none ↔
        ∀ j < (p.loops f).loops.size, ¬(p.loops f).Inside i j) := by
  -- the size asked for follows from the rest
  obtain ⟨js, hparent, hjs⟩ : ∃ js,
      ((p.loops f).get i).parent = Loop.smallest? (p.loops f).loops js ∧
      ∀ j, j ∈ js ↔ j < (p.loops f).loops.size ∧ (p.loops f).Inside i j := by
    refine ⟨_, parent_eq hi, fun j => ?_⟩
    rw [List.mem_filter, List.mem_range]
    refine and_congr_right fun hj => ?_
    rw [Bool.and_eq_true, Bool.and_eq_true, bne_iff_ne, Loop.contains_iff, decide_eq_true_eq]
    refine ⟨fun h => (inside_iff hp hi hj).2 ⟨h.1.1.symm, h.1.2⟩, fun h => ?_⟩
    obtain ⟨hne, hmem⟩ := (inside_iff hp hi hj).1 h
    refine ⟨⟨hne.symm, hmem⟩, ?_⟩
    obtain ⟨hsub, b, hb, hnot⟩ := h
    by_contra hle
    exact hnot (IdSet.mem_of_size_le hsub (Nat.le_of_not_lt hle) b hb)
  have haround (j : LoopId) (hj : j ∈ js) : j ∈ (p.loops f).around ((p.loops f).get i).header := by
    obtain ⟨hj, hsub, -⟩ := (hjs j).1 hj
    exact mem_around_iff.2 ⟨hj, hsub _ (natural_get hp hi).header_mem⟩
  rw [hparent]
  refine ⟨fun k => (smallest?_eq_some_iff hp haround).trans (Smallest.congr fun j hj => ?_), ?_⟩
  · rw [hjs, and_iff_right hj]
  · rw [smallest?_eq_none_iff, List.eq_nil_iff_forall_not_mem]
    simp only [hjs, not_and]

/-- The loop of a block is the smallest that holds it, if there is one. -/
theorem loopOf_iff (hp : p.Linked) (b : BlockId) :
    (∀ k, (p.loops f).loopOf b = some k ↔
        (p.loops f).Smallest (fun j => b ∈ ((p.loops f).get j).blocks) k) ∧
      ((p.loops f).loopOf b = none ↔
        ∀ j < (p.loops f).loops.size, b ∉ ((p.loops f).get j).blocks) := by
  have hloop : (p.loops f).loopOf b = Loop.smallest? (p.loops f).loops ((p.loops f).around b) := by
    rw [loopOf_eq]
    split
    · rfl
    · next hnot =>
      refine (smallest?_eq_none_iff.2 (List.eq_nil_iff_forall_not_mem.2 fun j hj => hnot ?_)).symm
      obtain ⟨hj, hb⟩ := mem_around_iff.1 hj
      exact (hp.closed_forward f).mem_blocks b ((natural_get hp hj).dom hb).reached
  rw [hloop]
  refine ⟨fun k => ?_, ?_⟩
  · refine (smallest?_eq_some_iff hp fun j hj => hj).trans (Smallest.congr fun j hj => ?_)
    rw [mem_around_iff, and_iff_right hj]
  · rw [smallest?_eq_none_iff, List.eq_nil_iff_forall_not_mem]
    simp only [mem_around_iff, not_and]

/-! ## the depth of a loop -/

/-- The loops around the header of a loop are the loop and those around the header of its parent. -/
theorem around_header (hp : p.Linked) (hi : i < (p.loops f).loops.size) :
    ((p.loops f).around ((p.loops f).get i).header).Perm
      (i :: ((p.loops f).get i).parent.elim [] fun k =>
        (p.loops f).around ((p.loops f).get k).header) := by
  have hnodup (b : BlockId) : ((p.loops f).around b).Nodup := List.nodup_range.filter _
  have hmem {j : LoopId} (hj : j < (p.loops f).loops.size) :
      ((p.loops f).get i).header ∈ ((p.loops f).get j).blocks ↔ j = i ∨ (p.loops f).Inside i j := by
    rw [inside_iff hp hi hj]
    rcases eq_or_ne j i with rfl | hne
    · exact iff_of_true (natural_get hp hi).header_mem (.inl rfl)
    · rw [or_iff_right hne, and_iff_right hne.symm]
  obtain ⟨hsome, hnone⟩ := parent_spec hp hi
  cases hparent : ((p.loops f).get i).parent with
  | none =>
    rw [Option.elim_none, List.perm_ext_iff_of_nodup (hnodup _) (List.nodup_singleton i)]
    intro j
    rw [mem_around_iff, List.mem_singleton]
    constructor
    · rintro ⟨hj, hheader⟩
      exact ((hmem hj).1 hheader).resolve_right (hnone.1 hparent j hj)
    · rintro rfl
      exact ⟨hi, (natural_get hp hi).header_mem⟩
  | some k =>
    have hk := (hsome k).1 hparent
    have hrest {j : LoopId} (hj : j < (p.loops f).loops.size) :
        ((p.loops f).get k).header ∈ ((p.loops f).get j).blocks ↔ (p.loops f).Inside i j := by
      refine ⟨fun hheader => ?_, fun h => hk.least j hj h _ (natural_get hp hk.lt).header_mem⟩
      rcases eq_or_ne k j with rfl | hne
      · exact hk.mem
      · exact hk.mem.trans ((inside_iff hp hk.lt hj).2 ⟨hne, hheader⟩)
    have hnot : i ∉ (p.loops f).around ((p.loops f).get k).header := by
      intro hback
      obtain ⟨-, b, hb, hnot⟩ := (hrest hi).1 (mem_around_iff.1 hback).2
      exact hnot hb
    rw [Option.elim_some,
      List.perm_ext_iff_of_nodup (hnodup _) (List.nodup_cons.2 ⟨hnot, hnodup _⟩)]
    intro j
    rw [List.mem_cons, mem_around_iff, mem_around_iff]
    constructor
    · rintro ⟨hj, hheader⟩
      exact ((hmem hj).1 hheader).imp_right fun h => ⟨hj, (hrest hj).2 h⟩
    · rintro (rfl | ⟨hj, hheader⟩)
      · exact ⟨hi, (natural_get hp hi).header_mem⟩
      · exact ⟨hj, (hmem hj).2 (.inr ((hrest hj).1 hheader))⟩

/-- The chain of parents is as long as there are loops around the header. -/
theorem chainLength_eq (hp : p.Linked) {bound : Nat} (hi : i < (p.loops f).loops.size)
    (hbound : ((p.loops f).around ((p.loops f).get i).header).length ≤ bound) :
    Loop.chainLength (p.loops f).loops bound (some i) =
      ((p.loops f).around ((p.loops f).get i).header).length := by
  induction bound generalizing i with
  | zero =>
    have hlen := (around_header hp hi).length_eq
    rw [List.length_cons] at hlen
    omega
  | succ bound ih =>
    have hlen := (around_header hp hi).length_eq
    obtain ⟨hsome, -⟩ := parent_spec hp hi
    rw [Loop.chainLength, ← get]
    cases hparent : ((p.loops f).get i).parent with
    | none =>
      rw [hparent] at hlen
      rw [hlen]
      cases bound <;> rfl
    | some k =>
      have hk := (hsome k).1 hparent
      rw [hparent, Option.elim_some, List.length_cons] at hlen
      rw [ih hk.lt (by omega)]
      omega

/-- The loops of a function are the natural loops of its headers, one inside the other or apart. -/
structure Forest (p : Program) (f : FuncId) (ls : Loops) : Prop where
  /-- There is a loop for each header. -/
  exists_header_iff : ∀ h, (∃ i < ls.loops.size, (ls.get i).header = h) ↔ ∃ a, p.IsLatch f h a
  /-- There is no other loop for the same header. -/
  eq_of_header : ∀ i < ls.loops.size, ∀ j < ls.loops.size,
    (ls.get i).header = (ls.get j).header → i = j
  mem_latches_iff : ∀ i < ls.loops.size, ∀ a,
    a ∈ (ls.get i).latches ↔ p.IsLatch f (ls.get i).header a
  mem_blocks_iff : ∀ i < ls.loops.size, ∀ b,
    b ∈ (ls.get i).blocks ↔ p.InLoop f (ls.get i).header b
  header_dom : ∀ i < ls.loops.size, ∀ b ∈ (ls.get i).blocks,
    PathDom (p.EntryPath f) (ls.get i).header b
  apart_or_inside : ∀ i < ls.loops.size, ∀ j < ls.loops.size, i ≠ j →
    (∀ b ∈ (ls.get i).blocks, b ∉ (ls.get j).blocks) ∨ ls.Inside i j ∨ ls.Inside j i
  parent_eq_some_iff : ∀ i < ls.loops.size, ∀ k,
    (ls.get i).parent = some k ↔ ls.Smallest (ls.Inside i) k
  parent_eq_none_iff : ∀ i < ls.loops.size,
    (ls.get i).parent = none ↔ ∀ j < ls.loops.size, ¬ls.Inside i j
  /-- The depth is the number of the loops that hold the header. -/
  depth_eq : ∀ i < ls.loops.size, (ls.get i).depth = (ls.around (ls.get i).header).length
  loopOf_eq_some_iff : ∀ b k, ls.loopOf b = some k ↔ ls.Smallest (fun j => b ∈ (ls.get j).blocks) k
  loopOf_eq_none_iff : ∀ b, ls.loopOf b = none ↔ ∀ j < ls.loops.size, b ∉ (ls.get j).blocks

end Loops

namespace Session

/-- **The natural loops of a function form a forest.** -/
theorem loops_forest {calls : List Call} {p : Program} (h : build calls = .ok p) (f : FuncId) :
    (p.loops f).Forest p f := by
  have hp := linked_of_build h
  constructor
  case exists_header_iff =>
    intro b
    constructor
    · rintro ⟨i, hi, rfl⟩
      have hl := Loops.natural_get hp hi
      obtain ⟨a, ha⟩ := hl.exists_latch
      exact ⟨a, hp.isLatch_iff.2 (hl.mem_latches_iff.1 ha)⟩
    · rintro ⟨a, ha⟩
      have hlatch := (Loop.mem_latchesOf_iff hp).2 (hp.isLatch_iff.1 ha)
      have hblock : b ∈ (p.func f).blocks :=
        (hp.closed_forward f).mem_blocks b (hp.isLatch_iff.1 ha).2.reached_left
      have hmem : b ∈ (p.loops f).loops.toList.map (·.header) := by
        rw [Loops.headers_eq, List.mem_filter, Bool.not_eq_true', List.isEmpty_eq_false_iff]
        exact ⟨hblock, List.ne_nil_of_mem hlatch⟩
      obtain ⟨l, hl, rfl⟩ := List.mem_map.1 hmem
      obtain ⟨i, hi, rfl⟩ := Array.mem_iff_getElem.1 (Array.mem_toList_iff.1 hl)
      refine ⟨i, hi, ?_⟩
      rw [Loops.get, Array.getD_eq_getD_getElem?, Array.getElem?_eq_getElem hi, Option.getD_some]
  case eq_of_header => exact fun i hi j hj => Loops.header_inj hp hi hj
  case mem_latches_iff =>
    intro i hi a
    rw [(Loops.natural_get hp hi).mem_latches_iff, hp.isLatch_iff]
  case mem_blocks_iff => exact fun i hi b => (Loops.natural_get hp hi).mem_blocks_iff hp
  case header_dom => exact fun i hi b hb => hp.pathDom_iff.2 ((Loops.natural_get hp hi).dom hb)
  case apart_or_inside => exact fun i hi j hj hne => Loops.apart_or_inside hp hi hj hne
  case parent_eq_some_iff => exact fun i hi => (Loops.parent_spec hp hi).1
  case parent_eq_none_iff => exact fun i hi => (Loops.parent_spec hp hi).2
  case depth_eq =>
    intro i hi
    rw [Loops.depth_eq hi, Loops.chainLength_eq hp hi]
    exact (List.length_filter_le _ _).trans_eq List.length_range
  case loopOf_eq_some_iff => exact fun b => (Loops.loopOf_iff hp b).1
  case loopOf_eq_none_iff => exact fun b => (Loops.loopOf_iff hp b).2

/-- A loop in a loop; control returns to the outer header from behind the inner loop and from
within. -/
def nested : List Call :=
  [.declare "main" 0, .const 0, .body 0, .newBlock, .newBlock, .newBlock, .newBlock, .newBlock,
    .append (.jump 1), .positionAt 1, .append (.branch 1 2 5), .positionAt 2,
    .append (.branch 1 3 4), .positionAt 3, .append (.branch 1 2 1), .positionAt 4,
    .append (.jump 1), .positionAt 5, .append (.ret none)]

theorem loops_forest_nested : ∃ p, build nested = .ok p ∧ (p.loops 0).loops.size = 2 ∧
    p.InLoop 0 1 4 ∧ p.InLoop 0 2 3 ∧ ¬p.InLoop 0 2 4 ∧ p.IsLatch 0 1 3 ∧
    (p.loops 0).Smallest ((p.loops 0).Inside 1) 0 ∧
    ((p.loops 0).around 2).length = 2 ∧ ∀ j < 2, 5 ∉ ((p.loops 0).get j).blocks := by
  obtain ⟨p, h, hp⟩ := exists_of_any_toOption (x := build nested)
    (P := fun p => decide ((p.loops 0).loops.size = 2 ∧ ((p.loops 0).get 0).header = 1 ∧
      ((p.loops 0).get 1).header = 2 ∧ ((p.loops 0).get 1).depth = 2 ∧
      ((p.loops 0).get 0).contains 4 = true ∧ ((p.loops 0).get 1).contains 3 = true ∧
      ((p.loops 0).get 1).contains 4 = false ∧ 3 ∈ ((p.loops 0).get 0).latches ∧
      ((p.loops 0).get 1).parent = some 0 ∧ (p.loops 0).loopOf 5 = none))
    (by decide +kernel)
  rw [decide_eq_true_eq] at hp
  obtain ⟨hsize, houter, hinner, hdepth, h4, h3, hnot, hlatch, hparent, h5⟩ := hp
  have hforest := loops_forest h 0
  have h0 : 0 < (p.loops 0).loops.size := by omega
  have h1 : 1 < (p.loops 0).loops.size := by omega
  refine ⟨p, h, hsize, ?_, ?_, ?_, ?_, (hforest.parent_eq_some_iff 1 h1 0).1 hparent, ?_, ?_⟩
  · exact houter ▸ (hforest.mem_blocks_iff 0 h0 4).1 (Loop.contains_iff.1 h4)
  · exact hinner ▸ (hforest.mem_blocks_iff 1 h1 3).1 (Loop.contains_iff.1 h3)
  · rw [← hinner, ← hforest.mem_blocks_iff 1 h1 4, ← Loop.contains_iff, hnot]
    exact Bool.false_ne_true
  · exact houter ▸ (hforest.mem_latches_iff 0 h0 3).1 hlatch
  · have hlen := hforest.depth_eq 1 h1
    rw [hinner, hdepth] at hlen
    exact hlen.symm
  · exact hsize ▸ (hforest.loopOf_eq_none_iff 5).1 h5

end Session

end DataRace
