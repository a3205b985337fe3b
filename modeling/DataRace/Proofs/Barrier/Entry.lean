import DataRace.Barrier
import DataRace.Proofs.Parallel.Reach

/-!
# DataRace.Proofs.Barrier.Entry

Which functions are on a side of a barrier as a whole.

The code around a wait is added block by block and instruction by instruction.
A function is added as a whole only when it is visited and all its ordinary
calls, of which there must be one, are on the side already; and a side never
loses code.

* `Gains` — what the visit of a function does to the sides of one barrier;
* `callsIn_of_mem_sides` — a function on a side has all its ordinary calls on that
  side.
-/

namespace DataRace

open Relation Std

namespace Barriers

variable {s : Subject} {b : Barriers} {f g : FuncId} {x : ValueId}

/-! ## the code around a wait -/

theorem foldl_addInst (is : List InstId) (out : CodeSet) :
    is.foldl .addInst out = { out with insts := is.foldl (·.insert ·) out.insts } := by
  induction is generalizing out with
  | nil => rfl
  | cons i is ih => rw [List.foldl_cons, ih, CodeSet.addInst, List.foldl_cons]

theorem foldl_addBlock (bs : List BlockId) (out : CodeSet) :
    bs.foldl .addBlock out = { out with blocks := bs.foldl (·.insert ·) out.blocks } := by
  induction bs generalizing out with
  | nil => rfl
  | cons c bs ih => rw [List.foldl_cons, ih, CodeSet.addBlock, List.foldl_cons]

section addCode

variable {p : Program} {out : CodeSet} {is : List InstId} {start c : BlockId} {i : InstId}
  {edges : BlockId → List BlockId} {isInside : BlockId → Bool}

theorem funcs_addCode : (addCode p out is start edges isInside).funcs = out.funcs := by
  unfold addCode
  rw [TreeSet.foldl_eq_foldl_toList, foldl_addBlock, foldl_addInst]

theorem mem_insts_addCode : i ∈ (addCode p out is start edges isInside).insts ↔
    i ∈ out.insts ∨ i ∈ is ∧ p.isInteresting i = true := by
  unfold addCode
  rw [TreeSet.foldl_eq_foldl_toList, foldl_addBlock, foldl_addInst, IdSet.mem_foldl_insert,
    List.mem_filter]

/-- The blocks that are added are reached inside without coming to one that is there already. -/
theorem mem_blocks_addCode (hedges : ∀ {a b}, b ∈ edges a → b < p.blocks.size) :
    c ∈ (addCode p out is start edges isInside).blocks ↔ c ∈ out.blocks ∨
      TransGen (fun a b => b ∈ edges a ∧ isInside b = true ∧ b ∉ out.blocks) start c := by
  unfold addCode
  rw [TreeSet.foldl_eq_foldl_toList, foldl_addBlock, foldl_addInst, IdSet.mem_foldl_insert,
    TreeSet.mem_toList, mem_reachable_next_iff fun hb => hedges (List.mem_filter.1 hb).1]
  simp only [List.mem_filter, Bool.and_eq_true, Bool.not_eq_true', ← Bool.not_eq_true,
    TreeSet.contains_iff_mem]

theorem addCode_within : out.Within (addCode p out is start edges isInside) := by
  unfold addCode
  rw [TreeSet.foldl_eq_foldl_toList, foldl_addBlock, foldl_addInst]
  exact ⟨fun _ h => h, fun _ h => IdSet.mem_foldl_insert.2 (.inl h),
    fun _ h => IdSet.mem_foldl_insert.2 (.inl h)⟩

/-- A region that is covered already is not added. -/
theorem ite_addCode_within {P : Prop} [Decidable P] :
    out.Within (if P then out else addCode p out is start edges isInside) ∧
      (if P then out else addCode p out is start edges isInside).funcs = out.funcs := by
  split
  · exact ⟨.refl out, rfl⟩
  · exact ⟨addCode_within, funcs_addCode⟩

end addCode

theorem addDominated_within (s : Subject) (out : CodeSet) (i : InstId) :
    out.Within (addDominated s out i) ∧ (addDominated s out i).funcs = out.funcs :=
  ite_addCode_within

theorem addPostDominated_within (s : Subject) (out : CodeSet) (i : InstId) :
    out.Within (addPostDominated s out i) ∧ (addPostDominated s out i).funcs = out.funcs :=
  ite_addCode_within

/-! ## the visit of a function -/

/-- The sides of a barrier keep their code, and of functions as a whole they gain at most one: on
each side only if it is to be there. -/
structure Gains (f : FuncId) (isBefore isAfter : Prop) (y z : BarrierSides) : Prop where
  before : y.before.Within z.before
  after : y.after.Within z.after
  mem_before : ∀ g ∈ z.before.funcs, g ∈ y.before.funcs ∨ g = f ∧ isBefore
  mem_after : ∀ g ∈ z.after.funcs, g ∈ y.after.funcs ∨ g = f ∧ isAfter

namespace Gains

variable {isBefore isAfter : Prop} {y z w : BarrierSides}

theorem refl (y : BarrierSides) : Gains f isBefore isAfter y y :=
  ⟨.refl _, .refl _, fun _ => .inl, fun _ => .inl⟩

theorem trans (h : Gains f isBefore isAfter y z) (h' : Gains f isBefore isAfter z w) :
    Gains f isBefore isAfter y w where
  before := h.before.trans h'.before
  after := h.after.trans h'.after
  mem_before g hg := (h'.mem_before g hg).elim (h.mem_before g) .inr
  mem_after g hg := (h'.mem_after g hg).elim (h.mem_after g) .inr

end Gains

theorem getD_update (F : BarrierSides → BarrierSides) (y : ValueId) :
    (b.update y F).sides.getD x {} =
      if y = x then F (b.sides.getD x {}) else b.sides.getD x {} := by
  rw [update, IdMap.getD_insert]
  by_cases hy : y = x
  · rw [if_pos hy, if_pos hy, hy]
  · rw [if_neg hy, if_neg hy]

/-- Of updates one after the other, those of the barrier count. -/
theorem getD_foldl_update {α : Type} (key : α → ValueId) {F : α → BarrierSides → BarrierSides}
    (as : List α) (b : Barriers) :
    (as.foldl (fun b a => b.update (key a) (F a)) b).sides.getD x {} =
      (as.filter (key · == x)).foldl (fun y a => F a y) (b.sides.getD x {}) := by
  induction as generalizing b with
  | nil => rfl
  | cons a as ih =>
    rw [List.foldl_cons, ih, getD_update, List.filter_cons]
    by_cases hkey : key a = x
    · rw [if_pos hkey, if_pos (beq_iff_eq.2 hkey), List.foldl_cons]
    · rw [if_neg hkey, if_neg (mt beq_iff_eq.1 hkey)]

/-- Updates one after the other gain what those of the barrier gain. -/
theorem gains_foldl_update {α : Type} {isBefore isAfter : Prop} (key : α → ValueId)
    {F : α → BarrierSides → BarrierSides} (as : List α) (b : Barriers)
    (hF : ∀ a ∈ as, key a = x → ∀ y, Gains f isBefore isAfter y (F a y)) :
    Gains f isBefore isAfter (b.sides.getD x {})
      ((as.foldl (fun b a => b.update (key a) (F a)) b).sides.getD x {}) := by
  rw [getD_foldl_update]
  refine List.foldlRecOn (motive := Gains f isBefore isAfter (b.sides.getD x {})) _ _ (.refl _)
    fun y hy a ha => ?_
  obtain ⟨ha, hkey⟩ := List.mem_filter.1 ha
  exact hy.trans (hF a ha (beq_iff_eq.1 hkey) y)

/-- What the visit of a function does to the sides of a barrier. -/
theorem gains_place : Gains f (x ∈ b.sharedBy s f (·.before)) (x ∈ b.sharedBy s f (·.after))
    (b.sides.getD x {}) ((place s b f).sides.getD x {}) := by
  have hbefore (y : ValueId) (hy : y ∈ b.sharedBy s f (·.before)) (hkey : id y = x)
      (z : BarrierSides) : Gains f (x ∈ b.sharedBy s f (·.before)) (x ∈ b.sharedBy s f (·.after))
        z { z with before := z.before.addFunc f } := by
    obtain rfl : y = x := hkey
    have hadds := CodeSet.adds_addFunc (p := s.program) z.before f
    exact ⟨hadds.toWithin, .refl _, fun g hg => (hadds.func g hg).imp_right (⟨·, hy⟩),
      fun _ => .inl⟩
  have hafter (y : ValueId) (hy : y ∈ b.sharedBy s f (·.after)) (hkey : id y = x)
      (z : BarrierSides) : Gains f (x ∈ b.sharedBy s f (·.before)) (x ∈ b.sharedBy s f (·.after))
        z { z with after := z.after.addFunc f } := by
    obtain rfl : y = x := hkey
    have hadds := CodeSet.adds_addFunc (p := s.program) z.after f
    exact ⟨.refl _, hadds.toWithin, fun _ => .inl,
      fun g hg => (hadds.func g hg).imp_right (⟨·, hy⟩)⟩
  have hwait (i : InstId) (z : BarrierSides) :
      Gains f (x ∈ b.sharedBy s f (·.before)) (x ∈ b.sharedBy s f (·.after)) z
        { before := addPostDominated s z.before i, after := addDominated s z.after i } := by
    have hpost := addPostDominated_within s z.before i
    have hdom := addDominated_within s z.after i
    exact ⟨hpost.1, hdom.1, fun g hg => .inl (hpost.2 ▸ hg), fun g hg => .inl (hdom.2 ▸ hg)⟩
  unfold place
  exact ((gains_foldl_update id _ _ hbefore).trans
    (gains_foldl_update id _ _ hafter)).trans
      (gains_foldl_update Prod.snd (F := fun e z =>
        { before := addPostDominated s z.before e.1, after := addDominated s z.after e.1 }) _ _
        fun e _ _ => hwait e.1)

/-! ## all visits -/

/-- All ordinary calls of a function are in some code, and there is one. -/
def CallsIn (s : Subject) (f : FuncId) (code : CodeSet) : Prop :=
  s.callSites f ≠ [] ∧ ∀ i ∈ s.callSites f, code.covers s.program i = true

theorem CallsIn.mono {code code' : CodeSet} (h : CallsIn s f code) (hcode : code.Within code') :
    CallsIn s f code' :=
  ⟨h.1, fun i hi => hcode.covers (h.2 i hi)⟩

theorem callsIn_of_mem_sharedBy {side : BarrierSides → CodeSet} (h : x ∈ b.sharedBy s f side) :
    CallsIn s f (side (b.sides.getD x {})) := by
  unfold sharedBy at h
  dsimp only at h
  split at h
  · cases h
  · next hne =>
    obtain ⟨⟨y, sides⟩, hy, rfl⟩ := List.mem_map.1 h
    obtain ⟨hmem, hall⟩ := List.mem_filter.1 hy
    rw [IdMap.getD_of_getElem? (TreeMap.mem_toList_iff_getElem?_eq_some.1 hmem)]
    exact ⟨by simpa using hne, List.all_eq_true.1 hall⟩

theorem within_foldl (fs : List FuncId) (b : Barriers) :
    (b.sides.getD x {}).before.Within ((fs.foldl (place s) b).sides.getD x {}).before ∧
    (b.sides.getD x {}).after.Within ((fs.foldl (place s) b).sides.getD x {}).after := by
  induction fs generalizing b with
  | nil => exact ⟨.refl _, .refl _⟩
  | cons g fs ih =>
    have hplace := gains_place (s := s) (b := b) (f := g) (x := x)
    exact ⟨hplace.before.trans (ih _).1, hplace.after.trans (ih _).2⟩

theorem sides_summarised (s : Subject) : (s.bottomUp.foldl (summarise s) {}).sides = ∅ := by
  have hfold (cs : List ComponentId) (b : Barriers) :
      (cs.foldl (summarise s) b).sides = b.sides := by
    induction cs generalizing b with
    | nil => rfl
    | cons c cs ih => rw [List.foldl_cons, ih, summarise]
  exact hfold _ _

/-- The functions in the order in which the sides are made. -/
def visits (s : Subject) : List FuncId := s.topDown.flatMap fun c => (s.components.get c).members

/-- The sides are made by one visit of each function. -/
theorem analyze_eq_foldl (s : Subject) :
    analyze s = (visits s).foldl (place s) (s.bottomUp.foldl (summarise s) {}) := by
  rw [analyze, visits, List.foldl_flatMap]

/-- **A function on a side of a barrier** has all its ordinary calls on that side, and there is
one. -/
theorem callsIn_of_mem_sides (s : Subject) (x : ValueId) (f : FuncId) :
    (f ∈ ((analyze s).sides.getD x {}).before.funcs →
      CallsIn s f ((analyze s).sides.getD x {}).before) ∧
    (f ∈ ((analyze s).sides.getD x {}).after.funcs →
      CallsIn s f ((analyze s).sides.getD x {}).after) := by
  -- each visit is judged by the sides in the end
  have hfold (fs : List FuncId) (b : Barriers)
      (hbefore : ∀ f ∈ (b.sides.getD x {}).before.funcs,
        CallsIn s f ((fs.foldl (place s) b).sides.getD x {}).before)
      (hafter : ∀ f ∈ (b.sides.getD x {}).after.funcs,
        CallsIn s f ((fs.foldl (place s) b).sides.getD x {}).after) :
      (∀ f ∈ ((fs.foldl (place s) b).sides.getD x {}).before.funcs,
        CallsIn s f ((fs.foldl (place s) b).sides.getD x {}).before) ∧
      ∀ f ∈ ((fs.foldl (place s) b).sides.getD x {}).after.funcs,
        CallsIn s f ((fs.foldl (place s) b).sides.getD x {}).after := by
    induction fs generalizing b with
    | nil => exact ⟨hbefore, hafter⟩
    | cons g fs ih =>
      have hgains := gains_place (s := s) (b := b) (f := g) (x := x)
      obtain ⟨hwithin, hwithin'⟩ := within_foldl (s := s) (x := x) (g :: fs) b
      refine ih _ (fun f hf => ?_) fun f hf => ?_
      · rcases hgains.mem_before f hf with hf | ⟨rfl, hshared⟩
        · exact hbefore f hf
        · exact (callsIn_of_mem_sharedBy hshared).mono hwithin
      · rcases hgains.mem_after f hf with hf | ⟨rfl, hshared⟩
        · exact hafter f hf
        · exact (callsIn_of_mem_sharedBy hshared).mono hwithin'
  have hnone (side : BarrierSides → CodeSet) (hside : side {} = ∅) :
      ∀ f, f ∉ (side ((s.bottomUp.foldl (summarise s) {}).sides.getD x {})).funcs := by
    intro f hf
    rw [sides_summarised, TreeMap.getD_emptyc, hside] at hf
    exact absurd hf TreeSet.not_mem_emptyc
  rw [analyze_eq_foldl]
  obtain ⟨hbefore, hafter⟩ := hfold (visits s) _
    (fun f hf => absurd hf (hnone (·.before) rfl f)) fun f hf => absurd hf (hnone (·.after) rfl f)
  exact ⟨hbefore f, hafter f⟩

end Barriers

end DataRace
