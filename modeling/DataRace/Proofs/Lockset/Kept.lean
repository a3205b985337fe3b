import DataRace.Proofs.Call.Summary
import DataRace.Proofs.Lockset.Held

/-!
# DataRace.Proofs.Lockset.Kept

Locks that a function leaves acquired are held when it returns.

A lock of the summary is taken at a site that dominates the return, so every
way through the function takes it there.  Behind the last time it does, control
does not get back into the block of the site from its beginning: it would have
to pass the site again.  So it is in the rest of that block, in the block of
the return, or in the blocks that lead there around both (`Behind`), which is
the code that is searched for unlocks.

* `Locksets.behind_of_runs` — where control is behind a site, by induction from
  the return backwards;
* `Locksets.not_mem_unlocksOf_of_behind` — no unlock stands there;
* `Subject.holds_of_mustAcquire` — the lock is held.
-/

namespace DataRace

open Std

/-- The last time that a list has an element. -/
theorem exists_last_of_mem {α : Type} {x : α} {xs : List α} (h : x ∈ xs) :
    ∃ ys zs, xs = ys ++ x :: zs ∧ x ∉ zs := by
  obtain ⟨ys, zs, heq, hnot⟩ := List.eq_append_cons_of_mem (List.mem_reverse.2 h)
  refine ⟨zs.reverse, ys.reverse, ?_, by rwa [List.mem_reverse]⟩
  rw [← List.reverse_reverse xs, heq]
  simp

/-! ## ways through a function -/

namespace Program

variable {p : Program} {f : FuncId} {i j r : Nat} {run after : List InstId}

theorem returnOf_spec (hp : p.WellFormed) (h : p.returnOf f = some r) :
    r < p.insts.size ∧ (p.op r).isReturn = true := by
  obtain ⟨b, -, hb⟩ := List.exists_of_findSome?_eq_some h
  obtain ⟨hterm, hreturn⟩ := Option.filter_eq_some_iff.1 hb
  obtain ⟨k, hk⟩ := List.mem_iff_getElem?.1 (List.mem_of_getLast? hterm)
  exact ⟨(hp.position_iff.1 hk).1, hreturn⟩

theorem mem_funcInsts_of_runs (hp : p.Finished) (hi : i ∈ p.funcInsts f)
    (hruns : p.Runs (i :: run)) : ∀ j ∈ run, j ∈ p.funcInsts f := by
  induction run generalizing i with
  | nil => simp
  | cons k run ih =>
    obtain ⟨hstep, hrest⟩ := List.isChain_cons_cons.1 hruns
    have hk : k ∈ p.funcInsts f := by
      obtain ⟨-, hc, hfirst⟩ | ⟨-, hnext⟩ := follows_cases hp.wellFormed hstep
      · exact mem_funcInsts_of_firstInst hp hi hc hfirst
      · exact mem_funcInsts_of_nextInst hp.wellFormed hi hnext
    intro j hj
    rcases List.mem_cons.1 hj with rfl | hj
    · exact hk
    · exact ih hk hrest j hj

/-- Behind the last time that control passes an instruction, on a run to an end that is not before
it, control is not before it. -/
theorem pos_lt_of_runs (hp : p.Finished) (hi : i < p.insts.size) (hphi : (p.op i).isPhi = false)
    (hruns : p.Runs (i :: after)) (hnot : i ∉ after) (hlast : (i :: after).getLast? = some r)
    (hend : ¬p.Before f i r) : ∀ j ∈ after, p.blockOf j = p.blockOf i →
      (p.inst i).pos < (p.inst j).pos := by
  intro j hj hblock
  have hlt := hruns.lt hp.wellFormed j hj
  by_contra hle
  have hne : (p.inst j).pos ≠ (p.inst i).pos := fun hpos =>
    hnot (hp.wellFormed.eq_of_pos hlt hi hblock hpos ▸ hj)
  obtain ⟨front, back, rfl⟩ := List.append_of_mem hj
  rw [← List.cons_append] at hruns hlast
  have hback : p.Runs (j :: back) := (List.isChain_append.1 hruns).2.1
  rw [List.getLast?_append_of_ne_nil _ (List.cons_ne_nil j back)] at hlast
  refine hend (before_of_runs hp hi hphi (.inr ⟨hblock, by omega⟩) hlt hback ?_ hlast)
  exact fun hmem => hnot (List.mem_append_right front (List.mem_cons_of_mem j hmem))

end Program

namespace Locksets

variable {s : Subject} {p : Program} {i j r : Nat}

/-! ## behind a site -/

/-- The blocks that lead to a block, around another one. -/
def between (p : Program) (start final : BlockId) : IdSet :=
  let back (b : BlockId) := (p.block b).preds.filter fun c => c != start && c != final
  reachable p.blocks.size back (back final)

/-- Control is behind a site and on the way to a return: in the rest of the block of the site, in
the block of the return if that is another one, or between both. -/
def Behind (p : Program) (site ret i : InstId) : Prop :=
  p.blockOf i = p.blockOf site ∧ (p.inst site).pos < (p.inst i).pos ∨
    p.blockOf site ≠ p.blockOf ret ∧
      (p.blockOf i = p.blockOf ret ∨ p.blockOf i ∈ between p (p.blockOf site) (p.blockOf ret))

/-- What precedes a place behind a site is behind the site, if control is not before the site. -/
theorem Behind.of_follows (hp : p.Finished) (hi : i < p.insts.size) (hphi : (p.op i).isPhi = false)
    {k : InstId} (hk : Behind p i r k) (hstep : p.Follows j k) (hj : j < p.insts.size)
    (hpos_j : p.blockOf j = p.blockOf i → (p.inst i).pos < (p.inst j).pos)
    (hpos_k : p.blockOf k = p.blockOf i → (p.inst i).pos < (p.inst k).pos) : Behind p i r j := by
  by_cases hblock : p.blockOf j = p.blockOf i
  · exact .inl ⟨hblock, hpos_j hblock⟩
  obtain ⟨-, hc, hfirst⟩ | ⟨-, hnext⟩ := Program.follows_cases hp.wellFormed hstep
  · -- control does not get into the block of the site, where it would be before the site
    have hout : p.blockOf k ≠ p.blockOf i := by
      intro hsame
      obtain ⟨k', hk', -, -, hle⟩ := hp.exists_firstInst hi hphi
      rw [← hsame, hfirst, Option.some.injEq] at hk'
      subst hk'
      have hlt := hpos_k hsame
      omega
    obtain ⟨hother, hplace⟩ := hk.resolve_left fun h => hout h.1
    refine .inr ⟨hother, or_iff_not_imp_left.2 fun hfinal => ?_⟩
    have hback : p.blockOf j ∈ (p.block (p.blockOf k)).preds.filter fun c =>
        c != p.blockOf i && c != p.blockOf r := by
      rw [List.mem_filter, Bool.and_eq_true, bne_iff_ne, bne_iff_ne]
      exact ⟨hp.linked.mem_preds_iff.2 hc, hblock, hfinal⟩
    have hlt := hp.wellFormed.blockOf_lt hj
    rcases hplace with hend | hbetween
    · exact mem_reachable_of_start (hend ▸ hback) hlt
    · exact mem_reachable_of_next hbetween hback hlt
  · obtain ⟨-, hsame, -⟩ := Program.nextInst_spec hp.wellFormed hnext
    rw [Behind, hsame] at hk
    exact .inr (hk.resolve_left fun h => hblock h.1)

/-- On a run to the return that does not get before a site, control is behind the site. -/
theorem behind_of_runs (hp : p.Finished) (hi : i < p.insts.size) (hphi : (p.op i).isPhi = false)
    {run : List InstId} (hruns : p.Runs run) (hlt : ∀ j ∈ run, j < p.insts.size)
    (hpos : ∀ j ∈ run, p.blockOf j = p.blockOf i → (p.inst i).pos < (p.inst j).pos)
    (hlast : run.getLast? = some r) : ∀ j ∈ run, Behind p i r j := by
  -- backwards from the return
  induction run with
  | nil => simp
  | cons j run ih =>
    have hj : j ∈ j :: run := List.mem_cons_self
    cases run with
    | nil =>
      obtain rfl := Option.some.inj hlast
      intro k hk
      obtain rfl := List.mem_singleton.1 hk
      by_cases hblock : p.blockOf k = p.blockOf i
      · exact .inl ⟨hblock, hpos k hj hblock⟩
      · exact .inr ⟨Ne.symm hblock, .inl rfl⟩
    | cons l run =>
      obtain ⟨hstep, hrest⟩ := List.isChain_cons_cons.1 hruns
      have hl : l ∈ j :: l :: run := by simp
      have hall := ih hrest (fun k hk => hlt k (List.mem_cons_of_mem j hk))
        (fun k hk => hpos k (List.mem_cons_of_mem j hk)) (by rwa [List.getLast?_cons_cons] at hlast)
      intro k hk
      rcases List.mem_cons.1 hk with rfl | hk
      · exact (hall l List.mem_cons_self).of_follows hp hi hphi hstep (hlt k hj)
          (hpos k hj) (hpos l hl)
      · exact hall k hk

/-- The locks of a site are kept: no unlock that may release one of them stands behind the site and
before the return. -/
theorem not_mem_unlocksOf_of_behind (hp : p.WellFormed) (hprog : s.program = p) {t : LockSites}
    {locks : IdSet} (hkeep : keepsAcquired s t i locks r = true) (hj : j < p.insts.size)
    (hbehind : Behind p i r j)
    (hret : p.blockOf j = p.blockOf r → (p.inst j).pos < (p.inst r).pos) :
    j ∉ unlocksOf s t locks := by
  obtain rfl := hprog
  intro hmem
  unfold keepsAcquired at hkeep
  dsimp only at hkeep
  split at hkeep
  · next hsame =>
    obtain ⟨hblock, hpos⟩ := hbehind.resolve_right fun h => h.1 hsame
    rw [Bool.not_eq_true', ← Bool.not_eq_true, IdSet.any_iff] at hkeep
    refine hkeep ⟨j, hmem, ?_⟩
    simp only [Bool.and_eq_true, decide_eq_true_eq]
    exact ⟨⟨hblock, hpos⟩, hret (hblock.trans hsame)⟩
  · simp only [Bool.and_eq_true, Bool.not_eq_true', ← Bool.not_eq_true, List.any_eq_true,
      IdSet.any_iff, TreeSet.contains_iff_mem] at hkeep
    obtain ⟨⟨hbefore, hafter⟩, hbetween⟩ := hkeep
    rcases hbehind with ⟨hblock, hpos⟩ | ⟨-, hblock | hplace⟩
    · exact hafter ⟨j, (Program.mem_instsAfter_iff hp).2 ⟨hj, hblock, hpos⟩, hmem⟩
    · exact hbefore ⟨j, (Program.mem_instsBefore_iff hp).2 ⟨hj, hblock, hret hblock⟩, hmem⟩
    · exact hbetween ⟨j, hmem, hplace⟩

/-! ## summaries of functions without calls -/

/-- Where no defined function is called, the sites of a function are its own locks and unlocks. -/
theorem sitesOf_eq_start {l : Locksets} {f : FuncId}
    (hcalls : ∀ i ∈ s.program.funcInsts f, s.calls.calleesAt i = []) :
    sitesOf s l f = sitesOf s {} f := by
  refine List.foldl_ext _ _ _ fun t i hi => ?_
  rw [addSite_start, addSite, hcalls i hi]
  rfl

end Locksets

namespace Subject

variable {p : Program} {c : Config} {s : Subject} {f : FuncId} {q : ValueId}

theorem calleesAt_eq_nil (h : s.Prepared p c) {i : InstId}
    (hcalls : ∀ g ∈ s.pointers.callees i, (p.func g).isDeclaration = true) :
    s.calls.calleesAt i = [] := by
  rw [List.eq_nil_iff_forall_not_mem]
  intro g hg
  have hdef := h.defined_of_mem_calleesAt hg
  rw [hcalls g (mem_calleesAt h hg).2] at hdef
  cases hdef

/-- A run that takes a lock and does not release it later holds it. -/
theorem Holds.of_takes {before after : List InstId} {i : InstId} (hi : s.program.Takes q i)
    (hafter : ∀ j ∈ after, ¬s.Releases q j) : s.Holds q (before ++ i :: after) := by
  obtain ⟨ys, zs, rfl, hzs, hys⟩ := Locksets.exists_longest_suffix (¬s.program.Takes q ·) after
  have hkeep : ∀ j ∈ zs, ¬s.program.Takes q j ∧ ¬s.Releases q j := fun j hj =>
    ⟨hzs j hj, hafter j (List.mem_append_right ys hj)⟩
  cases hlast : ys.getLast? with
  | none =>
    obtain rfl := List.getLast?_eq_none_iff.1 hlast
    exact ⟨before, i, zs, rfl, hi, hkeep⟩
  | some y =>
    obtain ⟨front, rfl⟩ := List.getLast?_eq_some_iff.1 hlast
    exact ⟨before ++ i :: front, y, zs, by simp, not_not.1 (hys y hlast), hkeep⟩

/-- **A lock that a function leaves acquired is held at its return**, on every way through a
function outside recursion that calls no defined function. -/
theorem holds_of_mustAcquire (hp : p.Finished) (hs : prepare p c = .ok s)
    (hrec : s.components.isRecursive f = false)
    (hcalls : ∀ i ∈ p.funcInsts f, ∀ g ∈ s.pointers.callees i, (p.func g).isDeclaration = true)
    (hq : Locksets.MustAcquire s f q) : ∀ run, p.WayThrough f run → s.Holds q run := by
  have h := prepared hs
  obtain rfl := h.program
  have hwf := hp.wellFormed
  intro run hway
  obtain ⟨l, hq, -⟩ := Locksets.exists_of_mustAcquire h hrec hq
  obtain ⟨i, r, locks, hr, hdom, hi, hsite, hlocks, hkeep⟩ := Locksets.exists_of_mem_effectsOf hq
  have hnone : ∀ j ∈ s.program.funcInsts f, s.calls.calleesAt j = [] := fun j hj =>
    calleesAt_eq_nil h (hcalls j hj)
  have htakes : s.program.Takes q i := by
    refine hsite.resolve_right ?_
    rintro ⟨g, hg, -⟩
    rw [hnone i hi] at hg
    cases hg
  rw [Locksets.sitesOf_eq_start hnone] at hkeep
  have hr := h.flow_ret hr
  have hlt := htakes.lt
  have hphi := Program.isPhi_of_isCall (Program.isCall_of_libraryCall (eq_of_beq htakes.1))
  have hmem := mem_of_wayThrough hp h hway hi hphi hr hdom
  -- the last time that the way passes the site
  obtain ⟨before, after, rfl, hnot⟩ := exists_last_of_mem hmem
  have hruns : s.program.Runs (i :: after) := (List.isChain_append.1 hway.runs).2.1
  have hlast : (i :: after).getLast? = some r := by
    rw [← hr, ← hway.returns, List.getLast?_append_of_ne_nil _ (List.cons_ne_nil i after)]
  have hin := Program.mem_funcInsts_of_runs hp hi hruns
  have hlt_after := hruns.lt hwf
  refine .of_takes htakes fun j hj hrel => ?_
  have hbehind : Locksets.Behind s.program i r j := by
    have hpos := Program.pos_lt_of_runs hp hlt hphi hruns hnot hlast
      (not_before_of_dominates hp h hi hdom)
    cases after with
    | nil => cases hj
    | cons k after =>
      rw [List.getLast?_cons_cons] at hlast
      exact Locksets.behind_of_runs hp hlt hphi hruns.tail hlt_after hpos hlast j hj
  -- the return stands behind the unlock if both are in one block
  obtain ⟨hr_lt, hreturn⟩ := Program.returnOf_spec hwf hr
  have hpos (hblock : s.program.blockOf j = s.program.blockOf r) :
      (s.program.inst j).pos < (s.program.inst r).pos := by
    have hle := hp.pos_le_of_isTerminator hr_lt
      (Operation.isTerminator_of_isReturn hreturn) (hlt_after j hj) hblock
    refine Nat.lt_of_le_of_ne hle fun heq => ?_
    obtain rfl := hwf.eq_of_pos (hlt_after j hj) hr_lt hblock heq
    have hcall := Program.isCall_of_libraryCall (eq_of_beq hrel.1)
    have hterm := Operation.isTerminator_of_isReturn hreturn
    rw [Program.isTerminator_of_isInteresting (Program.isInteresting_of_isCall hcall)] at hterm
    cases hterm
  exact Locksets.not_mem_unlocksOf_of_behind hwf rfl hkeep (hlt_after j hj) hbehind hpos
    (hrel.mem_unlocksOf hp h (hin j hj) hlocks)

/-- A function that releases a lock first and then takes it in a loop. -/
def lockInLoop : List Command :=
  [.global "m" 0, .global "g" 0, .declare "acquire" 0, .declare "main" 0, .declare "mutex_lock" 1,
    .declare "mutex_unlock" 1, .const 0,
    .body 0, .block 0, .block 0,
    .append 0 0 (.call (.direct 3) [0]), .append 0 0 (.jump 1),
    .append 0 1 (.call (.direct 2) [0]), .append 0 1 (.load 1), .append 0 1 (.compare .eq 11 8),
    .append 0 1 (.branch 12 1 2), .append 0 2 (.ret none),
    .body 1, .append 1 3 (.call (.direct 0) []), .append 1 3 (.ret none)]

theorem holds_of_mustAcquire_lockInLoop : ∃ s, prepare (Builder.ofScript lockInLoop) {} = .ok s ∧
    s.components.isRecursive 0 = false ∧ Locksets.MustAcquire s 0 0 ∧
    (Builder.ofScript lockInLoop).WayThrough 0 [0, 1, 2, 3, 4, 5, 2, 3, 4, 5, 6] ∧
    s.Holds 0 [0, 1, 2, 3, 4, 5, 2, 3, 4, 5, 6] := by
  have hfin : (Builder.ofScript lockInLoop).Finished :=
    Builder.finished_ofScript (by decide +kernel)
  have heval : (prepare (Builder.ofScript lockInLoop) {}).toOption.any (fun s =>
      !s.components.isRecursive 0 &&
        ((s.bottomUp.foldl (Locksets.summarise s) {}).acquiredBy s 0).any (·.contains 0) &&
        ((Builder.ofScript lockInLoop).funcInsts 0).all fun i => (s.pointers.callees i).all fun g =>
          ((Builder.ofScript lockInLoop).func g).isDeclaration) = true := by
    decide +kernel
  obtain ⟨s, hs, heval⟩ := exists_of_any_toOption heval
  simp only [Bool.and_eq_true, Bool.not_eq_true', List.all_eq_true] at heval
  obtain ⟨⟨hrec, hmust⟩, hcalls⟩ := heval
  have hmust := Locksets.mustAcquire_iff.2 hmust
  have hway : (Builder.ofScript lockInLoop).WayThrough 0 [0, 1, 2, 3, 4, 5, 2, 3, 4, 5, 6] := by
    decide +kernel
  exact ⟨s, hs, hrec, hmust, hway, holds_of_mustAcquire hfin hs hrec hcalls hmust _ hway⟩

end Subject

end DataRace
