import DataRace.Proofs.Guard.Table

/-!
# DataRace.Proofs.Guard.Entry

Which guards a block inherits from the calls of its function.

While the guards of a function are being found it counts as unguarded, so what a
table answers depends on the order of the questions where functions call each
other in a circle.  It never answers too much: a guard that is added to those of
a block holds, by the guards of the blocks alone, at every ordinary call of its
function (`Guarded`), whatever was asked before.

* `ensures_guards` — an answer consists of the guards of the block and of guards that
  hold at all calls.
-/

namespace DataRace

open Std

/-! ## guards that hold at all calls -/

/-- A fact holds at a block: a guard of the block states it, or it holds at the block of every
ordinary call of its function, and there is one. -/
inductive Subject.Guarded {φ ε : Type} (s : Subject) (read : Guard.Reader φ ε) :
    BlockId → φ → Prop where
  | own {b : BlockId} {g : Guard φ ε} (h : g ∈ s.guardsAt read b) : Guarded s read b g.fact
  | inherited {b : BlockId} {fact : φ} (hne : s.callSites (s.program.block b).func ≠ [])
      (h : ∀ i ∈ s.callSites (s.program.block b).func, Guarded s read (s.program.blockOf i) fact) :
      Guarded s read b fact

/-- A fact holds at every ordinary call of a function, and there is one. -/
def Subject.GuardedAtCalls {φ ε : Type} (s : Subject) (read : Guard.Reader φ ε) (f : FuncId)
    (fact : φ) : Prop :=
  s.callSites f ≠ [] ∧ ∀ i ∈ s.callSites f, s.Guarded read (s.program.blockOf i) fact

namespace GuardTable

variable {φ ε : Type} [DecidableEq φ] {s : Subject} {read : Guard.Reader φ ε}

theorem mem_inherit {own outer : List (Guard φ ε)} {g : Guard φ ε} (h : g ∈ inherit own outer) :
    g ∈ own ∨ g ∈ outer := by
  induction outer generalizing own with
  | nil => exact .inl h
  | cons g' outer ih =>
    rcases ih h with h | h
    · dsimp only at h
      split at h
      · exact .inl h
      · rcases List.mem_append.1 h with h | h
        · exact .inl h
        · exact .inr (List.mem_singleton.1 h ▸ List.mem_cons_self)
    · exact .inr (List.mem_cons_of_mem g' h)

/-- An answer for a block consists of its guards and of guards that hold at all calls. -/
def Answers (s : Subject) (read : Guard.Reader φ ε) (b : BlockId) (gs : List (Guard φ ε)) : Prop :=
  ∃ outer, (∀ g ∈ outer, s.GuardedAtCalls read (s.program.block b).func g.fact) ∧
    gs = inherit (s.guardsAt read b) outer

theorem Answers.guarded {b : BlockId} {gs : List (Guard φ ε)} (h : Answers s read b gs) :
    ∀ g ∈ gs, s.Guarded read b g.fact := by
  obtain ⟨outer, houter, rfl⟩ := h
  intro g hg
  rcases mem_inherit hg with hg | hg
  · exact .own hg
  · exact .inherited (houter g hg).1 (houter g hg).2

/-- Everything in a table is an answer. -/
structure Backed (s : Subject) (read : Guard.Reader φ ε) (t : GuardTable φ ε) : Prop where
  byBlock : ∀ b gs, t.byBlock[b]? = some gs → Answers s read b gs
  byFunc : ∀ f gs, t.byFunc[f]? = some gs → ∀ g ∈ gs, s.GuardedAtCalls read f g.fact

theorem Backed.insertBlock {t : GuardTable φ ε} (h : Backed s read t) {b : BlockId}
    {gs : List (Guard φ ε)} (hgs : Answers s read b gs) :
    Backed s read { t with byBlock := t.byBlock.insert b gs } where
  byBlock b' gs' hgs' := by
    rw [TreeMap.getElem?_insert] at hgs'
    split at hgs'
    · next heq =>
      cases hgs'
      rwa [← LawfulEqCmp.compare_eq_iff_eq.1 heq]
    · exact h.byBlock b' gs' hgs'
  byFunc := h.byFunc

theorem Backed.insertFunc {t : GuardTable φ ε} (h : Backed s read t) {f : FuncId}
    {gs : List (Guard φ ε)} (hgs : ∀ g ∈ gs, s.GuardedAtCalls read f g.fact) :
    Backed s read { t with byFunc := t.byFunc.insert f gs } where
  byBlock := h.byBlock
  byFunc f' gs' hgs' := by
    rw [TreeMap.getElem?_insert] at hgs'
    split at hgs'
    · next heq =>
      cases hgs'
      rwa [← LawfulEqCmp.compare_eq_iff_eq.1 heq]
    · exact h.byFunc f' gs' hgs'

theorem ensures_shared {ask : BlockId → StateM (GuardTable φ ε) (List (Guard φ ε))}
    (hask : ∀ b, Ensures (Backed s read) (Backed s read) (ask b) (Answers s read b)) (f : FuncId) :
    Ensures (Backed s read) (Backed s read) (shared s ask f)
      fun gs => ∀ g ∈ gs, s.GuardedAtCalls read f g.fact := by
  refine Ensures.get.bind fun t ht => ?_
  cases hfound : t.byFunc[f]? with
  | some gs => exact .pure (ht.byFunc f gs hfound)
  | none =>
    refine (Ensures.modify fun t ht => ht.insertFunc (by simp)).bind fun _ _ => ?_
    -- what is common to the blocks looked at so far holds at each of them
    refine Ensures.bind (Ensures.foldlM
      (R := fun done common => (common = none → done = []) ∧
        ∀ g ∈ common.getD [], done ≠ [] ∧ ∀ b ∈ done, s.Guarded read b g.fact)
      ?_ [] (by simp)) fun common hcommon => ?_
    · intro done common b _ hdone
      refine (hask b).bind fun gs hgs => .pure ⟨by simp, fun g hg => ⟨by simp, fun b' hb' => ?_⟩⟩
      cases common with
      | none =>
        rw [hdone.1 rfl, List.nil_append, List.mem_singleton] at hb'
        exact hb' ▸ hgs.guarded g hg
      | some hs =>
        obtain ⟨hg, hstates⟩ := List.mem_filter.1 hg
        rcases List.mem_append.1 hb' with hb' | hb'
        · exact (hdone.2 g hg).2 b' hb'
        · obtain ⟨g', hg', heq⟩ := List.any_eq_true.1 hstates
          rw [List.mem_singleton.1 hb', ← of_decide_eq_true heq]
          exact hgs.guarded g' hg'
    · have hgs : ∀ g ∈ common.getD [], s.GuardedAtCalls read f g.fact := by
        intro g hg
        obtain ⟨hne, hall⟩ := hcommon.2 g hg
        have hmem (i : InstId) (hi : i ∈ s.callSites f) :
            s.program.blockOf i ∈ [] ++ (callBlocks s f).toList := by
          rw [List.nil_append, TreeSet.mem_toList, callBlocks, TreeSet.mem_ofList,
            List.contains_iff_mem]
          exact List.mem_map_of_mem hi
        refine ⟨fun hnil => hne ?_, fun i hi => hall _ (hmem i hi)⟩
        rw [hnil]
        rfl
      exact (Ensures.modify fun t ht => ht.insertFunc hgs).bind fun _ _ => .pure hgs

theorem ensures_find (depth : Nat) (b : BlockId) :
    Ensures (Backed s read) (Backed s read) (find s read depth b) (Answers s read b) := by
  induction depth generalizing b with
  | zero => exact .pure ⟨[], by simp, rfl⟩
  | succ depth ih =>
    refine Ensures.get.bind fun t ht => ?_
    cases hfound : t.byBlock[b]? with
    | some gs => exact .pure (ht.byBlock b gs hfound)
    | none =>
      refine Ensures.get.bind fun u hu => ?_
      have hrest (outer : List (Guard φ ε))
          (houter : ∀ g ∈ outer, s.GuardedAtCalls read (s.program.block b).func g.fact) :
          Ensures (Backed s read) (Backed s read) (do
            modify fun t => { t with
              byBlock := t.byBlock.insert b (inherit (s.guardsAt read b) outer) }
            return inherit (s.guardsAt read b) outer) (Answers s read b) := by
        have hanswer : Answers s read b (inherit (s.guardsAt read b) outer) := ⟨outer, houter, rfl⟩
        exact (Ensures.modify fun t ht => ht.insertBlock hanswer).bind fun _ _ => .pure hanswer
      dsimp only
      split
      · exact (ensures_shared ih _).bind hrest
      · exact hrest [] (by simp)

/-- **What a table answers for a block** are the guards of the block and guards that hold at all
ordinary calls of its function, whatever was asked before. -/
theorem ensures_guards (b : BlockId) :
    Ensures (Backed s read) (Backed s read) (guards s read b) (Answers s read b) :=
  ensures_find _ b

theorem backed_new (s : Subject) (read : Guard.Reader φ ε) (inherits : Bool) :
    Backed s read { inherits } := by
  constructor <;> simp

/-- The table after questions one after the other. -/
def asked (s : Subject) (read : Guard.Reader φ ε) (bs : List BlockId) : GuardTable φ ε :=
  bs.foldl (fun t b => ((guards s read b).run t).2) { inherits := true }

/-- What holds of the new table and is kept by each question holds after them. -/
theorem asked_induction {I : GuardTable φ ε → Prop} (hnew : I { inherits := true })
    (hstep : ∀ b t, I t → I ((guards s read b).run t).2) (bs : List BlockId) :
    I (asked s read bs) := by
  have hfold (t : GuardTable φ ε) (ht : I t) :
      I (bs.foldl (fun t b => ((guards s read b).run t).2) t) := by
    induction bs generalizing t with
    | nil => exact ht
    | cons b bs ih => exact ih _ (hstep b t ht)
  exact hfold _ hnew

theorem backed_asked (s : Subject) (read : Guard.Reader φ ε) (bs : List BlockId) :
    Backed s read (asked s read bs) :=
  asked_induction (backed_new s read true) (fun b t ht => (ensures_guards b t ht).2) bs

end GuardTable

end DataRace
