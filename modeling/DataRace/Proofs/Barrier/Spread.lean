import DataRace.Proofs.Barrier.Entry
import DataRace.Proofs.Flow.Through

/-!
# DataRace.Proofs.Barrier.Spread

What waits add to one side of a barrier.

A wait adds the rest of its block and the blocks it dominates, one after the
other along the edges.  All waits of a function at one barrier add to the same
side, in the order of their numbers, and the way of a later one ends at blocks
that are there already (`SpreadsTo`): what lies behind these is left out, unless
an earlier wait gets there by itself.

* `Spreads` — what one wait adds, the same in both directions;
* `Holds` — what some waits have added, kept by the next one;
* `Spreads.covers_foldl_iff` — what all waits of a function add;
* `exists_spreadsTo` — nothing is left out of a wait whose block dominates no
  other block of an earlier one.
-/

namespace DataRace

open Relation

/-- An instruction stands in the same block before another one. -/
def Program.Earlier (p : Program) (i j : InstId) : Prop :=
  p.blockOf i = p.blockOf j ∧ (p.inst i).pos < (p.inst j).pos

namespace Barriers

/-- The code that a wait adds spreads to a block: along edges, over blocks that its block dominates,
and none of them a block that a wait with a smaller number spreads to. -/
def SpreadsTo (p : Program) (g : FlowGraph) (waits : InstId → Prop) (w : InstId) : BlockId → Prop :=
  TransGen (fun a c => c ∈ g.next a ∧ g.Dom (p.blockOf w) c ∧
    ∀ v, v < w → waits v → ¬SpreadsTo p g waits v c) (p.blockOf w)
termination_by w

/-- An instruction is next to a wait in its block, or some wait spreads to its block. -/
def Around (p : Program) (g : FlowGraph) (near : InstId → InstId → Prop) (waits : InstId → Prop)
    (i : InstId) : Prop :=
  ∃ w, waits w ∧ (near w i ∨ SpreadsTo p g waits w (p.blockOf i))

section spreadsTo

variable {p : Program} {g : FlowGraph} {waits : InstId → Prop} {v w : InstId} {a c : BlockId}

theorem SpreadsTo.dom (h : SpreadsTo p g waits w c) : g.Dom (p.blockOf w) c := by
  unfold SpreadsTo at h
  obtain ⟨-, -, -, hdom, -⟩ := TransGen.tail'_iff.1 h
  exact hdom

/-- The code of a wait spreads on to what its block dominates and no earlier wait spreads to. -/
theorem SpreadsTo.next (h : a = p.blockOf w ∨ SpreadsTo p g waits w a) (hc : c ∈ g.next a)
    (hdom : g.Dom (p.blockOf w) c) (hfree : ∀ v, v < w → waits v → ¬SpreadsTo p g waits v c) :
    SpreadsTo p g waits w c := by
  rcases h with rfl | h
  · unfold SpreadsTo
    exact .single ⟨hc, hdom, hfree⟩
  · unfold SpreadsTo at h ⊢
    exact h.tail ⟨hc, hdom, hfree⟩

/-- A wait at a place that an earlier wait covers adds no block. -/
theorem not_spreadsTo_of_covered (hvw : v < w) (hv : waits v)
    (hcov : p.blockOf w = p.blockOf v ∨ SpreadsTo p g waits v (p.blockOf w)) :
    ¬SpreadsTo p g waits w c := by
  intro h
  unfold SpreadsTo at h
  obtain ⟨a, ⟨hnext, hdom, hfree⟩, -⟩ := TransGen.head'_iff.1 h
  -- The first block would have been reached from the earlier wait.
  refine hfree v hvw hv
    (SpreadsTo.next hcov hnext ?_ fun u huv hu => hfree u (Nat.lt_trans huv hvw) hu)
  rcases hcov with heq | hspread
  · exact heq ▸ hdom
  · exact hspread.dom.trans hdom

/-- No wait with a smaller number stands in another block that the block of a wait dominates. -/
def Outermost (p : Program) (g : FlowGraph) (waits : InstId → Prop) (w : InstId) : Prop :=
  ∀ v < w, waits v → g.Dom (p.blockOf w) (p.blockOf v) → p.blockOf v = p.blockOf w

/-- From a block that an outermost wait or an earlier one gets to, they get on to what follows and
is dominated by the block of the outermost one. -/
theorem exists_spreadsTo_next (hfirst : Outermost p g waits w) (hvw : v ≤ w) (hv : waits v)
    (ha : a = p.blockOf v ∨ SpreadsTo p g waits v a) (hda : g.Dom (p.blockOf w) a)
    (hc : c ∈ g.next a) (hdc : g.Dom (p.blockOf w) c) :
    ∃ u ≤ w, waits u ∧ SpreadsTo p g waits u c := by
  by_cases hearlier : ∃ u < v, waits u ∧ SpreadsTo p g waits u c
  · obtain ⟨u, huv, hu, hspread⟩ := hearlier
    exact ⟨u, Nat.le_trans (Nat.le_of_lt huv) hvw, hu, hspread⟩
  · refine ⟨v, hvw, hv, SpreadsTo.next ha hc ?_ fun u huv hu hspread =>
      hearlier ⟨u, huv, hu, hspread⟩⟩
    have hva : g.Dom (p.blockOf v) a := by
      rcases ha with rfl | ha
      · exact .refl hda.reached
      · exact ha.dom
    -- Both blocks dominate `a`; below `w` are only waits of its own block.
    rcases hva.total hda with habove | hbelow
    · exact habove.trans hdc
    · rcases Nat.lt_or_eq_of_le hvw with hlt | rfl
      · exact hfirst v hlt hv hbelow ▸ hdc
      · exact hdc

/-- To all other blocks that the block of an outermost wait dominates, it or an earlier one
spreads. -/
theorem exists_spreadsTo (hw : waits w) (hfirst : Outermost p g waits w)
    (hdom : g.Dom (p.blockOf w) c) (hne : c ≠ p.blockOf w) :
    ∃ v, waits v ∧ SpreadsTo p g waits v c := by
  suffices h : ∃ v ≤ w, waits v ∧ SpreadsTo p g waits v c from h.imp fun _ h => h.2
  induction hdom.transGen hne with
  | single h =>
    exact exists_spreadsTo_next hfirst (Nat.le_refl w) hw (.inl rfl)
      (.refl hdom.reached_left) h.1 h.2
  | @tail a c hpath h ih =>
    obtain ⟨-, -, -, hda⟩ := TransGen.tail'_iff.1 hpath
    by_cases haw : a = p.blockOf w
    · exact exists_spreadsTo_next hfirst (Nat.le_refl w) hw (.inl haw) hda h.1 h.2
    · obtain ⟨v, hvw, hv, hspread⟩ := ih hda haw
      exact exists_spreadsTo_next hfirst hvw hv (.inr hspread) hda h.1 h.2

/-- What the block of an outermost wait dominates is around the waits. -/
theorem around_of_outermost {near : InstId → InstId → Prop} {i : InstId} (hw : waits w)
    (hplace : near w i ∨ p.blockOf i ≠ p.blockOf w ∧ g.Dom (p.blockOf w) (p.blockOf i))
    (hfirst : p.blockOf i = p.blockOf w ∨ Outermost p g waits w) : Around p g near waits i := by
  rcases hplace with hnear | ⟨hother, hdom⟩
  · exact ⟨w, hw, .inl hnear⟩
  · obtain ⟨v, hv, hspread⟩ := exists_spreadsTo hw (hfirst.resolve_left hother) hdom hother
    exact ⟨v, hv, .inr hspread⟩

end spreadsTo

/-! ## what waits add -/

/-- What a wait of a function adds to a side, in one direction. -/
structure Spreads (p : Program) (f : FuncId) (g : FlowGraph) (near : InstId → InstId → Prop)
    (add : CodeSet → InstId → CodeSet) : Prop where
  mem_blocks : ∀ b ∈ g.reached, b ∈ (p.func f).blocks
  near_block : ∀ {w i}, near w i → p.blockOf i = p.blockOf w
  near_trans : ∀ {v w i}, near v w → near w i → near v i
  skip : ∀ {out w}, out.covers p w = true → add out w = out
  funcs : ∀ {out w}, (add out w).funcs = out.funcs
  block_iff : ∀ {out w c}, w ∈ p.funcInsts f → out.covers p w = false → (c ∈ (add out w).blocks ↔
    c ∈ out.blocks ∨ TransGen (fun a c => c ∈ g.next a ∧ g.Dom (p.blockOf w) c ∧ c ∉ out.blocks)
      (p.blockOf w) c)
  inst_iff : ∀ {out w i}, w ∈ p.funcInsts f → out.covers p w = false → (i ∈ (add out w).insts ↔
    i ∈ out.insts ∨ near w i ∧ i < p.insts.size ∧ p.isInteresting i = true)

/-- What a side holds of a function after some of its waits. -/
structure Holds (p : Program) (f : FuncId) (g : FlowGraph) (near : InstId → InstId → Prop)
    (waits : InstId → Prop) (done : InstId → Prop) (code : CodeSet) : Prop where
  func : f ∉ code.funcs
  block_iff : ∀ {c}, c ∈ (p.func f).blocks →
    (c ∈ code.blocks ↔ ∃ v, done v ∧ SpreadsTo p g waits v c)
  near_of_mem : ∀ {i}, i ∈ p.funcInsts f → i ∈ code.insts → ∃ v, done v ∧ near v i
  covers_of_near : ∀ {v i}, done v → near v i → i ∈ p.funcInsts f → p.isInteresting i = true →
    code.covers p i = true

namespace Spreads

variable {p : Program} {f : FuncId} {g : FlowGraph} {near : InstId → InstId → Prop}
  {add : CodeSet → InstId → CodeSet} {waits : InstId → Prop} {w i : InstId} {code : CodeSet}

/-- A wait adds code of its function only. -/
theorem adds (hadd : Spreads p f g near add) (hp : p.Finished) (hplaced : p.Placed)
    (hw : w ∈ p.funcInsts f) : CodeSet.Adds p (· = f) code (add code w) := by
  cases hcov : code.covers p w with
  | true =>
    rw [hadd.skip hcov]
    exact .refl code
  | false =>
    have hblock {c : BlockId} (hc : c ∈ (add code w).blocks) :
        c ∈ code.blocks ∨ (p.block c).func = f := by
      refine ((hadd.block_iff hw hcov).1 hc).imp_right fun hpath => ?_
      obtain ⟨-, -, -, hdom, -⟩ := TransGen.tail'_iff.1 hpath
      exact (hp.wellFormed.mem_blocks_iff.1 (hadd.mem_blocks c hdom.reached)).2
    have hinst {i : InstId} (hi : i ∈ (add code w).insts) : i ∈ code.insts ∨ p.funcOf i = f := by
      refine ((hadd.inst_iff hw hcov).1 hi).imp_right ?_
      rintro ⟨hnear, hlt, -⟩
      rw [← hplaced i hlt, hadd.near_block hnear]
      exact ((Program.mem_funcInsts_iff hp.wellFormed).1 hw).2
    constructor
    case func => exact fun k hk => .inl (hadd.funcs ▸ hk)
    case block => exact fun c hc => hblock hc
    case inst => exact fun i hi => hinst hi
    case toWithin =>
      exact ⟨fun k hk => hadd.funcs.symm ▸ hk, fun c hc => (hadd.block_iff hw hcov).2 (.inl hc),
        fun i hi => (hadd.inst_iff hw hcov).2 (.inl hi)⟩

/-- A wait that an earlier one covers adds nothing. -/
theorem holds_skip (hadd : Spreads p f g near add) (hp : p.Finished) {done : InstId → Prop}
    (hcode : Holds p f g near waits done code) (hw : w ∈ p.funcInsts f)
    (hdone : ∀ v, done v ↔ v < w ∧ waits v)
    (hcov : p.blockOf w ∈ code.blocks ∨ w ∈ code.insts) :
    Holds p f g near waits (fun v => done v ∨ v = w) code := by
  obtain ⟨hlt, hfunc⟩ := (Program.mem_funcInsts_iff hp.wellFormed).1 hw
  have hblock : p.blockOf w ∈ (p.func f).blocks :=
    hp.wellFormed.mem_blocks_iff.2 ⟨hp.wellFormed.blockOf_lt hlt, hfunc⟩
  have hearlier : ∃ v, done v ∧ (near v w ∨ SpreadsTo p g waits v (p.blockOf w)) := by
    rcases hcov with hb | hi
    · obtain ⟨v, hv, hspread⟩ := (hcode.block_iff hblock).1 hb
      exact ⟨v, hv, .inr hspread⟩
    · obtain ⟨v, hv, hnear⟩ := hcode.near_of_mem hw hi
      exact ⟨v, hv, .inl hnear⟩
  obtain ⟨v, hv, hvw⟩ := hearlier
  have hnone (c : BlockId) : ¬SpreadsTo p g waits w c :=
    not_spreadsTo_of_covered ((hdone v).1 hv).1 ((hdone v).1 hv).2 (hvw.imp_left hadd.near_block)
  constructor
  case func => exact hcode.func
  case block_iff =>
    intro c hc
    rw [hcode.block_iff hc]
    constructor
    · rintro ⟨u, hu, hspread⟩
      exact ⟨u, .inl hu, hspread⟩
    · rintro ⟨u, hu | rfl, hspread⟩
      · exact ⟨u, hu, hspread⟩
      · exact absurd hspread (hnone c)
  case near_of_mem =>
    intro i hi hmem
    obtain ⟨u, hu, hnear⟩ := hcode.near_of_mem hi hmem
    exact ⟨u, .inl hu, hnear⟩
  case covers_of_near =>
    rintro u i (hu | rfl) hnear hi hkind
    · exact hcode.covers_of_near hu hnear hi hkind
    · rcases hvw with hvw | hspread
      · exact hcode.covers_of_near hv (hadd.near_trans hvw hnear) hi hkind
      · have hb := (hcode.block_iff hblock).2 ⟨v, hv, hspread⟩
        exact CodeSet.covers_iff.2 (.inr (.inl (hadd.near_block hnear ▸ hb)))

/-- A wait that no earlier one covers adds what it spreads to. -/
theorem holds_add (hadd : Spreads p f g near add) (hp : p.Finished) (hplaced : p.Placed)
    {done : InstId → Prop} (hcode : Holds p f g near waits done code) (hw : w ∈ p.funcInsts f)
    (hdone : ∀ v, done v ↔ v < w ∧ waits v) (hcov : code.covers p w = false) :
    Holds p f g near waits (fun v => done v ∨ v = w) (add code w) := by
  -- Outside of what is there is where no earlier wait spreads to.
  have hfree : (fun a c => c ∈ g.next a ∧ g.Dom (p.blockOf w) c ∧ c ∉ code.blocks) = fun a c =>
      c ∈ g.next a ∧ g.Dom (p.blockOf w) c ∧ ∀ v, v < w → waits v → ¬SpreadsTo p g waits v c := by
    funext a c
    refine propext (and_congr_right fun _ => and_congr_right fun hdom => ?_)
    rw [hcode.block_iff (hadd.mem_blocks c hdom.reached)]
    simp only [hdone, not_exists, not_and, and_imp]
  constructor
  case func => exact fun hf => hcode.func (hadd.funcs ▸ hf)
  case block_iff =>
    intro c hc
    rw [hadd.block_iff hw hcov, hcode.block_iff hc, hfree]
    constructor
    · rintro (⟨u, hu, hspread⟩ | hspread)
      · exact ⟨u, .inl hu, hspread⟩
      · exact ⟨w, .inr rfl, by unfold SpreadsTo; exact hspread⟩
    · rintro ⟨u, hu | rfl, hspread⟩
      · exact .inl ⟨u, hu, hspread⟩
      · unfold SpreadsTo at hspread
        exact .inr hspread
  case near_of_mem =>
    intro i hi hmem
    rcases (hadd.inst_iff hw hcov).1 hmem with hold | ⟨hnear, -⟩
    · obtain ⟨u, hu, hnear⟩ := hcode.near_of_mem hi hold
      exact ⟨u, .inl hu, hnear⟩
    · exact ⟨w, .inr rfl, hnear⟩
  case covers_of_near =>
    rintro u i (hu | rfl) hnear hi hkind
    · exact (hadd.adds hp hplaced hw).covers (hcode.covers_of_near hu hnear hi hkind)
    · have hlt := ((Program.mem_funcInsts_iff hp.wellFormed).1 hi).1
      exact CodeSet.covers_iff.2
        (.inr (.inr ((hadd.inst_iff hw hcov).2 (.inr ⟨hnear, hlt, hkind⟩))))

/-- What the waits of a function add in the order of their numbers. -/
theorem holds_foldl (hadd : Spreads p f g near add) (hp : p.Finished) (hplaced : p.Placed)
    {ws : List InstId} {done : InstId → Prop} (hcode : Holds p f g near waits done code)
    (hws : ∀ w ∈ ws, w ∈ p.funcInsts f) (hasc : ws.Pairwise (· < ·))
    (hbefore : ∀ v, done v → ∀ w ∈ ws, v < w) (hwaits : ∀ v, waits v ↔ done v ∨ v ∈ ws) :
    Holds p f g near waits waits (ws.foldl add code) := by
  induction ws generalizing done code with
  | nil =>
    obtain rfl : waits = done := funext fun v => propext (by simpa using hwaits v)
    exact hcode
  | cons w ws ih =>
    obtain ⟨hleast, hasc⟩ := List.pairwise_cons.1 hasc
    have hw := hws w List.mem_cons_self
    have hdone (v : InstId) : done v ↔ v < w ∧ waits v := by
      refine ⟨fun hv => ⟨hbefore v hv w List.mem_cons_self, (hwaits v).2 (.inl hv)⟩,
        fun ⟨hlt, hv⟩ => ?_⟩
      refine ((hwaits v).1 hv).resolve_right fun hmem => ?_
      rcases List.mem_cons.1 hmem with rfl | hmem
      · exact Nat.lt_irrefl _ hlt
      · exact Nat.lt_asymm hlt (hleast v hmem)
    have hstep : Holds p f g near waits (fun v => done v ∨ v = w) (add code w) := by
      cases hcov : code.covers p w with
      | false => exact hadd.holds_add hp hplaced hcode hw hdone hcov
      | true =>
        rw [hadd.skip hcov]
        refine hadd.holds_skip hp hcode hw hdone ((CodeSet.covers_iff.1 hcov).resolve_left ?_)
        rw [((hplaced.mem_funcInsts_iff hp.wellFormed).1 hw).2]
        exact hcode.func
    refine ih hstep (fun v hv => hws v (List.mem_cons_of_mem w hv)) hasc ?_ fun v => ?_
    · rintro v (hv | rfl) u hu
      · exact hbefore v hv u (List.mem_cons_of_mem w hu)
      · exact hleast u hu
    · rw [hwaits, List.mem_cons, or_assoc]

theorem funcs_foldl (hadd : Spreads p f g near add) (code : CodeSet) (ws : List InstId) :
    (ws.foldl add code).funcs = code.funcs :=
  List.foldlRecOn (motive := fun out : CodeSet => out.funcs = code.funcs) _ _ rfl
    fun _ hout _ _ => hadd.funcs.trans hout

/-- What the sides of a barrier hold of a function once all its waits have added to them. -/
theorem covers_foldl_iff (hadd : Spreads p f g near add) (hp : p.Finished) (hplaced : p.Placed)
    {ws : List InstId} (hcode : f ∉ code.funcs → Holds p f g near waits (fun _ => False) code)
    (hws : ∀ w ∈ ws, w ∈ p.funcInsts f) (hasc : ws.Pairwise (· < ·))
    (hwaits : ∀ v, waits v ↔ v ∈ ws) (hi : i ∈ p.funcInsts f) (hint : p.isInteresting i = true) :
    (ws.foldl add code).covers p i = true ↔ f ∈ code.funcs ∨ Around p g near waits i := by
  have hfuncOf := ((hplaced.mem_funcInsts_iff hp.wellFormed).1 hi).2
  obtain ⟨hlt, hfunc⟩ := (Program.mem_funcInsts_iff hp.wellFormed).1 hi
  have hblock : p.blockOf i ∈ (p.func f).blocks :=
    hp.wellFormed.mem_blocks_iff.2 ⟨hp.wellFormed.blockOf_lt hlt, hfunc⟩
  by_cases hf : f ∈ code.funcs
  · refine iff_of_true (CodeSet.covers_iff.2 (.inl ?_)) (.inl hf)
    rw [hadd.funcs_foldl, hfuncOf]
    exact hf
  · have hholds := hadd.holds_foldl hp hplaced (hcode hf) hws hasc (fun _ h => h.elim)
      fun v => by simpa using hwaits v
    rw [or_iff_right hf]
    constructor
    · intro hcov
      rcases CodeSet.covers_iff.1 hcov with hmem | hmem | hmem
      · rw [hfuncOf] at hmem
        exact absurd hmem hholds.func
      · obtain ⟨v, hv, hspread⟩ := (hholds.block_iff hblock).1 hmem
        exact ⟨v, hv, .inr hspread⟩
      · obtain ⟨v, hv, hnear⟩ := hholds.near_of_mem hi hmem
        exact ⟨v, hv, .inl hnear⟩
    · rintro ⟨v, hv, hnear | hspread⟩
      · exact hholds.covers_of_near hv hnear hi hint
      · exact CodeSet.covers_iff.2 (.inr (.inl ((hholds.block_iff hblock).2 ⟨v, hv, hspread⟩)))

end Spreads

/-! ## the two directions -/

section directions

variable {s : Subject} {p : Program} {c : Config} {f : FuncId} {w i : InstId}

/-- A wait that is not covered yet adds what is near it in its block, and the blocks inside. -/
theorem spreads_of_addCode {g : FlowGraph} {near : InstId → InstId → Prop}
    {add : CodeSet → InstId → CodeSet} {is : InstId → List InstId}
    {inside : InstId → BlockId → Bool} (hadd : ∀ out w, add out w = if out.covers p w then out
      else addCode p out (is w) (p.blockOf w) g.next (inside w))
    (hmem : ∀ b ∈ g.reached, b ∈ (p.func f).blocks)
    (hnext : ∀ {a b}, b ∈ g.next a → b < p.blocks.size)
    (hinside : ∀ {w c}, w ∈ p.funcInsts f → (inside w c = true ↔ g.Dom (p.blockOf w) c))
    (his : ∀ {w i}, p.isInteresting i = true → (i ∈ is w ↔ near w i ∧ i < p.insts.size))
    (hblock : ∀ {w i}, near w i → p.blockOf i = p.blockOf w)
    (htrans : ∀ {v w i}, near v w → near w i → near v i) : Spreads p f g near add where
  mem_blocks := hmem
  near_block := hblock
  near_trans := htrans
  skip hcov := by rw [hadd, if_pos hcov]
  funcs {out w} := by
    rw [hadd]
    split
    · rfl
    · exact funcs_addCode
  block_iff {out w c} hw hcov := by
    rw [hadd, if_neg (by simp [hcov]), mem_blocks_addCode hnext]
    simp only [hinside hw]
  inst_iff {out w i} hw hcov := by
    rw [hadd, if_neg (by simp [hcov]), mem_insts_addCode, ← and_assoc]
    exact or_congr_right (and_congr_left fun hint => his hint)

/-- What is after a wait: the rest of its block, and forwards what its block dominates. -/
theorem spreads_dominated (hp : p.Finished) (hplaced : p.Placed) (h : s.Prepared p c) (f : FuncId) :
    Spreads p f (.forward p f) p.Earlier (addDominated s) := by
  obtain rfl := h.program
  refine spreads_of_addCode (fun _ _ => rfl) (hp.linked.closed_forward f).mem_blocks
    (fun hb => (hp.linked.succ_spec hb).2.1) (fun {w c} hw => ?_) (fun {w i} hint => ?_)
    (fun hnear => hnear.1.symm) fun hvw hwi => ⟨hvw.1.trans hwi.1, Nat.lt_trans hvw.2 hwi.2⟩
  · obtain ⟨hlt, hfunc⟩ := (hplaced.mem_funcInsts_iff hp.wellFormed).1 hw
    rw [h.flowOf hp.wellFormed hlt, hfunc]
    exact hp.dominates_iff
  · refine (Cut.mem_takeWhile_drop hp hint).trans
      ⟨fun ⟨hlt, hblock, hpos⟩ => ?_, fun ⟨hnear, hlt⟩ => ?_⟩
    · exact ⟨⟨hblock.symm, hpos⟩, hlt⟩
    · exact ⟨hlt, hnear.1.symm, hnear.2⟩

theorem mem_instsBefore (hp : p.Finished) :
    i ∈ p.instsBefore w ↔ p.Earlier i w ∧ i < p.insts.size := by
  rw [Program.mem_instsBefore_iff hp.wellFormed, and_comm]
  rfl

/-- What is before a wait: the beginning of its block, and backwards what its block
post-dominates. -/
theorem spreads_postDominated (hp : p.Finished) (hplaced : p.Placed) (h : s.Prepared p c)
    (f : FuncId) :
    Spreads p f (.backward p f) (fun w i => p.Earlier i w) (addPostDominated s) := by
  obtain rfl := h.program
  refine spreads_of_addCode (fun _ _ => rfl) (hp.linked.closed_backward f).mem_blocks
    (fun hb => (hp.linked.succ_spec (hp.linked.mem_preds_iff.1 hb)).1) (fun {w c} hw => ?_)
    (fun _ => mem_instsBefore hp) (fun hnear => hnear.1)
    fun hvw hwi => ⟨hwi.1.trans hvw.1, Nat.lt_trans hwi.2 hvw.2⟩
  obtain ⟨hlt, hfunc⟩ := (hplaced.mem_funcInsts_iff hp.wellFormed).1 hw
  rw [h.flowOf hp.wellFormed hlt, hfunc]
  exact Dominance.dominates_iff (hp.linked.closed_backward f)

end directions

end Barriers

end DataRace
