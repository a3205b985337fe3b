import DataRace.Proofs.Lockset.Sites
import DataRace.Proofs.Program.Script

/-!
# DataRace.Proofs.Lockset.Held

When a recorded lock is really held.

A lock is recorded at an instruction because some way there from a lock call
avoids all unlocks.  That says nothing about the other ways.  They all come
through the code that the lock is spread over at last, though, and nothing in
that code releases the lock.  So what matters is how control gets into it:

* behind a lock call, which is where spreading starts, or
* at the beginning of a block, from a block that the lock was not spread over.

A recorded lock is held on every way to the instruction exactly if it is held
whenever control gets in at the beginning of a block
(`mustHold_iff_heldOnEntry`).  The spreading does not check that, and with an
unlock on one of two branches it fails (`unlockOnOneBranch`).
-/

namespace DataRace

open Std

/-! ## runs without contradicting branches -/

/-- Two comparisons of the same values with opposite predicates. -/
def Comparison.Contradicts (a b : Comparison) : Prop :=
  a.lhs = b.lhs ∧ a.rhs = b.rhs ∧ b.pred = a.pred.inverse

instance (a b : Comparison) : Decidable (a.Contradicts b) :=
  inferInstanceAs (Decidable (_ ∧ _ ∧ _))

namespace Program

/-- What a step says about the condition of a branch with two targets. -/
def outcome? (p : Program) (i j : InstId) : Option (ValueId × Bool) :=
  match p.op i with
  | .branch cond whenTrue whenFalse =>
    if whenTrue = whenFalse then none else some (cond, p.blockOf j == whenTrue)
  | _ => none

/-- The comparisons that the branches of a run decide. -/
def comparisons (p : Program) : List InstId → List Comparison
  | i :: j :: rest =>
    (((p.outcome? i j).bind fun (cond, outcome) => Comparison.read p cond outcome).map
      (·.fact)).toList ++ p.comparisons (j :: rest)
  | _ => []

/-- A run from the start of a function to an instruction that decides no comparison both ways. -/
structure ConsistentRun (p : Program) (f : FuncId) (run : List InstId) (i : InstId) : Prop where
  start : p.start? f = (run ++ [i]).head?
  runs : p.Runs (run ++ [i])
  consistent : ∀ a ∈ p.comparisons (run ++ [i]), ∀ b ∈ p.comparisons (run ++ [i]), ¬a.Contradicts b

variable {p : Program}

theorem ConsistentRun.lt (hp : p.WellFormed) {f : FuncId} {run : List InstId} {i j : Nat}
    (h : p.ConsistentRun f run i) (hj : j ∈ run) : j < p.insts.size := by
  obtain ⟨hstart, hruns, -⟩ := h
  cases run with
  | nil => cases hj
  | cons k run =>
    rcases List.mem_cons.1 hj with rfl | hj
    · obtain ⟨b, -, hfirst⟩ := Option.bind_eq_some_iff.1 hstart
      exact (firstInst_spec hp hfirst).1
    · exact Runs.lt hp hruns j (List.mem_append_left _ hj)

end Program

/-! ## held locks -/

namespace Subject

/-- A run takes a lock, and after it took it last nothing may have released it. -/
def Holds (s : Subject) (lock : ValueId) (run : List InstId) : Prop :=
  ∃ before l after, run = before ++ l :: after ∧ s.program.Takes lock l ∧
    ∀ j ∈ after, ¬s.program.Takes lock j ∧ ¬s.Releases lock j

variable {s : Subject} {q : ValueId} {before inside : List InstId}

theorem Holds.append (h : s.Holds q before)
    (hin : ∀ j ∈ inside, ¬s.program.Takes q j ∧ ¬s.Releases q j) :
    s.Holds q (before ++ inside) := by
  obtain ⟨xs, l, ys, rfl, hl, hys⟩ := h
  refine ⟨xs, l, ys ++ inside, by simp, hl, fun j hj => ?_⟩
  rcases List.mem_append.1 hj with hj | hj
  · exact hys j hj
  · exact hin j hj

theorem Holds.of_append (h : s.Holds q (before ++ inside))
    (hin : ∀ j ∈ inside, ¬s.program.Takes q j) : s.Holds q before := by
  obtain ⟨xs, l, ys, heq, hl, hys⟩ := h
  rcases List.append_eq_append_iff.1 heq with ⟨zs, rfl, hzs⟩ | ⟨zs, rfl, hzs⟩
  · have hmem : l ∈ inside := by
      rw [hzs]
      simp
    exact absurd hl (hin l hmem)
  · cases zs with
    | nil =>
      rw [List.nil_append] at hzs
      exact absurd hl (hin l (hzs ▸ List.mem_cons_self))
    | cons z zs =>
      obtain ⟨rfl, rfl⟩ := List.cons.inj hzs
      exact ⟨xs, l, zs, rfl, hl, fun j hj => hys j (List.mem_append_left _ hj)⟩

/-- A call of a function that may release one of some locks is an unlock site for them. -/
theorem Releases.mem_unlocksOf {p : Program} {c : Config} (hp : p.Finished) (h : s.Prepared p c)
    {f : FuncId} {u : InstId} {locks : IdSet} (hrel : s.Releases q u) (hu : u ∈ p.funcInsts f)
    (hq : q ∈ locks) : u ∈ Locksets.unlocksOf s (Locksets.sitesOf s {} f) locks := by
  obtain ⟨hunlock, v, hv, halias⟩ := hrel
  rw [h.program] at hunlock hv
  have hlt : v < p.values.size := Program.entryArg_lt hp.wellFormed hv
  refine Locksets.mem_unlocksOf_iff.2 ⟨q, hq, p.stripCasts v, ?_, ?_⟩
  · rw [Locksets.mem_unlocks_sitesOf, h.program]
    exact ⟨hu, hunlock, v, hv, rfl⟩
  · rwa [PointsTo.mayAlias_stripCasts hp h.pointers hlt]

end Subject

/-! ## the code a lock is spread over -/

namespace Locksets

/-- A lock is spread to an instruction from behind one of its lock calls. -/
def Covers (s : Subject) (f : FuncId) (lock : ValueId) (i : InstId) : Prop :=
  ∃ l r, s.program.Takes lock l ∧ s.program.nextInst l = some r ∧
    i ∈ spreadFrom s (sitesOf s {} f) r {lock}

variable {p : Program} {c : Config} {s : Subject} {main : FuncId} {q : ValueId}

section

variable (hp : p.Finished) (h : s.Prepared p c) (hb : p.SingleBody main)

include hp h hb

theorem mem_unlocksOf_of_releases {u : Nat} (hu : s.Releases q u) :
    u ∈ unlocksOf s (sitesOf s {} main) {q} := by
  have hlt : u < p.insts.size :=
    Program.lt_of_isCall (Program.isCall_of_libraryCall (eq_of_beq (h.program ▸ hu.1)))
  exact hu.mem_unlocksOf hp h (hb.mem_funcInsts hp.wellFormed hlt) (IdSet.mem_singleton.2 rfl)

/-- How control gets to an instruction that a lock is spread to. -/
theorem covers_cases {d j : Nat} (hd : d < p.insts.size) (hstep : p.Follows d j)
    (hj : Covers s main q j) :
    Covers s main q d ∧ ¬s.Releases q d ∨ p.Takes q d ∨ ∃ b, p.firstInst b = some j := by
  have hwf := hp.wellFormed
  obtain ⟨l, r, hl, hr, hmem⟩ := hj
  rw [h.program] at hl hr
  obtain ⟨-, -, hfirst⟩ | ⟨-, hnext⟩ := Program.follows_cases hwf hstep
  · exact .inr (.inr ⟨_, hfirst⟩)
  · -- Control comes from inside the block, so from one instruction only.
    rcases mem_spread_cases hmem with hin | hstack | hfirst | ⟨d', hd', hunlock, hstep'⟩
    · simp at hin
    · obtain rfl := List.mem_singleton.1 hstack
      exact .inr (.inl (Program.eq_of_nextInst_eq hwf hd hl.lt hnext hr ▸ hl))
    · rw [h.program] at hfirst
      exact .inr (.inr hfirst)
    · rw [h.program] at hstep'
      obtain ⟨-, -, hfirst⟩ | ⟨-, hnext'⟩ := Program.follows_cases hwf hstep'
      · exact .inr (.inr ⟨_, hfirst⟩)
      · have hlt : d' < p.insts.size := by
          rcases lt_of_mem_spread hd' with hin | hlt
          · simp at hin
          · rwa [h.program] at hlt
        obtain rfl := Program.eq_of_nextInst_eq hwf hd hlt hnext hnext'
        refine .inl ⟨⟨l, r, h.program ▸ hl, h.program ▸ hr, hd'⟩, fun hrel => hunlock ?_⟩
        exact mem_unlocksOf_of_releases hp h hb hrel

/-- Control does not get there from an unlock. -/
theorem not_releases_of_covers {u j : Nat} (hstep : p.Follows u j) (hj : Covers s main q j) :
    ¬s.Releases q u := by
  intro hrel
  have hunlock : p.isUnlock u = true := h.program ▸ hrel.1
  have hcall : (p.op u).isCall = true := Program.isCall_of_libraryCall (eq_of_beq hunlock)
  have hu := Program.lt_of_isCall hcall
  rcases covers_cases hp h hb hu hstep hj with ⟨-, hnot⟩ | ⟨hlock, -⟩ | ⟨b, hfirst⟩
  · exact hnot hrel
  · rw [Program.isLock, eq_of_beq hunlock] at hlock
    cases hlock
  · have hint := Program.isInteresting_of_isCall hcall
    rw [Program.Follows, Program.isTerminator_of_isInteresting hint] at hstep
    exact Program.firstInst_ne_of_nextInst hp.wellFormed hu
      (Program.isPhi_of_isInteresting hint) hstep
      b hfirst

/-- Nothing in the code that a lock is spread over releases it. -/
theorem not_releases_of_runs {inside : List InstId} {i : InstId} (hruns : p.Runs (inside ++ [i]))
    (hcov : ∀ j ∈ inside, Covers s main q j) (hi : Covers s main q i) :
    ∀ j ∈ inside, ¬s.Releases q j := by
  induction inside with
  | nil => simp
  | cons d inside ih =>
    have hrest := ih hruns.tail fun j hj => hcov j (List.mem_cons_of_mem d hj)
    intro j hj
    rcases List.mem_cons.1 hj with rfl | hj
    · cases inside with
      | nil => exact not_releases_of_covers hp h hb (List.isChain_cons_cons.1 hruns).1 hi
      | cons k inside =>
        exact not_releases_of_covers hp h hb (List.isChain_cons_cons.1 hruns).1 (hcov k (by simp))
    · exact hrest j hj

end

/-! ## recorded locks -/

/-- A lock is held whenever an instruction runs. -/
def MustHold (s : Subject) (main : FuncId) (lock : ValueId) (i : InstId) : Prop :=
  ∀ run, s.program.ConsistentRun main run i → s.Holds lock run

/-- A lock is held whenever control, on its way to an instruction, gets at the beginning of a block
into the code that the lock is spread over, and does not take the lock in there. -/
def HeldOnEntry (s : Subject) (main : FuncId) (lock : ValueId) (i : InstId) : Prop :=
  ∀ before inside, s.program.ConsistentRun main (before ++ inside) i →
    (∀ j ∈ inside, Covers s main lock j ∧ ¬s.program.Takes lock j) →
    (∀ d, before.getLast? = some d → ¬Covers s main lock d) →
    (∀ j, (inside ++ [i]).head? = some j → ∃ b, s.program.firstInst b = some j) →
    s.Holds lock before

/-- A list ends with a longest part in which every element has a property. -/
theorem exists_longest_suffix {α : Type} (P : α → Prop) (xs : List α) : ∃ ys zs, xs = ys ++ zs ∧
    (∀ z ∈ zs, P z) ∧ ∀ y, ys.getLast? = some y → ¬P y := by
  induction xs using List.reverseRecOn with
  | nil => exact ⟨[], [], rfl, by simp, by simp⟩
  | append_singleton xs x ih =>
    obtain ⟨ys, zs, rfl, hzs, hys⟩ := ih
    by_cases hx : P x
    · refine ⟨ys, zs ++ [x], by simp, fun z hz => ?_, hys⟩
      rcases List.mem_append.1 hz with hz | hz
      · exact hzs z hz
      · exact List.mem_singleton.1 hz ▸ hx
    · exact ⟨ys ++ zs ++ [x], [], by simp, by simp, by simpa using hx⟩

/-- A recorded lock is held whenever the instruction runs exactly if it is held whenever control
gets at the beginning of a block into the code that the lock is spread over. -/
theorem mustHold_iff_heldOnEntry (hp : p.Finished) (hs : Subject.prepare p c = .ok s)
    (hmode : c.localLocksets = false) (hb : p.SingleBody main)
    (hcalls : ∀ i, ∀ f ∈ s.pointers.callees i, (p.func f).isDeclaration = true) {i : InstId}
    {locks : IdSet} (hlocks : (analyze s).of? i = some locks) (hq : q ∈ locks) :
    MustHold s main q i ↔ HeldOnEntry s main q i := by
  have h := Subject.prepared hs
  obtain rfl := h.program
  have hwf := hp.wellFormed
  have hi : Covers s main q i := by
    have hheld : q ∈ (analyze s).held.getD i ∅ := by
      rw [IdMap.getD_of_getElem? hlocks]
      exact hq
    obtain ⟨l, r, hl, hr, hprot⟩ := (mem_held_iff h hb hmode hwf hcalls).1 hheld
    exact ⟨l, r, hl, hr, (mem_protectedFrom_iff.1 hprot).1⟩
  constructor
  · intro hmust before inside hrun hin _ _
    exact (hmust _ hrun).of_append fun j hj => (hin j hj).2
  · intro hentry run hrun
    -- The last part of the run that stays in the covered code and does not take the lock.
    obtain ⟨before, inside, rfl, hin, hlast⟩ :=
      exists_longest_suffix (fun j => Covers s main q j ∧ ¬s.program.Takes q j) run
    have hruns : s.program.Runs (before ++ (inside ++ [i])) := by
      rw [← List.append_assoc]
      exact hrun.runs
    have hkeep : ∀ j ∈ inside, ¬s.program.Takes q j ∧ ¬s.Releases q j := fun j hj =>
      ⟨(hin j hj).2, not_releases_of_runs hp h hb (List.isChain_append.1 hruns).2.1
        (fun k hk => (hin k hk).1) hi j hj⟩
    have hcovers : ∀ j, (inside ++ [i]).head? = some j → Covers s main q j := by
      intro j hj
      have hmem := List.mem_of_mem_head? hj
      rcases List.mem_append.1 hmem with hmem | hmem
      · exact (hin j hmem).1
      · exact List.mem_singleton.1 hmem ▸ hi
    cases hbefore : before.getLast? with
    | none =>
      obtain rfl := List.getLast?_eq_none_iff.1 hbefore
      refine (hentry [] inside hrun hin (by simp) fun j hj => ?_).append hkeep
      have hstart := hrun.start
      rw [List.nil_append, hj] at hstart
      obtain ⟨b, -, hfirst⟩ := Option.bind_eq_some_iff.1 hstart
      exact ⟨b, hfirst⟩
    | some d =>
      obtain ⟨front, rfl⟩ := List.getLast?_eq_some_iff.1 hbefore
      by_cases hd : s.program.Takes q d
      · exact ⟨front, d, inside, by simp, hd, hkeep⟩
      · have hout : ¬Covers s main q d := fun hc => hlast d hbefore ⟨hc, hd⟩
        refine (hentry _ inside hrun hin ?_ fun j hj => ?_).append hkeep
        · intro d' hd'
          obtain rfl := Option.some.inj (hbefore.symm.trans hd')
          exact hout
        · have hstep : s.program.Follows d j :=
            (List.isChain_append.1 hruns).2.2 d hbefore j hj
          have hlt : d < s.program.insts.size := hrun.lt hwf (by simp)
          rcases covers_cases hp h hb hlt hstep (hcovers j hj) with ⟨hc, -⟩ | hc | hc
          · exact absurd hc hout
          · exact absurd hc hd
          · exact hc

/-! ## an unlock on one of two branches -/

theorem mem_spreadFrom_of_mem_region {t : LockSites} {root j : Nat} {locks : IdSet}
    (hroot : root < s.program.insts.size) (h : j ∈ region s (unlocksOf s t locks) ∅ root) :
    j ∈ spreadFrom s t root locks := by
  rw [spreadFrom, spread, dif_pos ⟨hroot, by simp⟩, if_pos (by simp)]
  exact mem_spread_of_mem (TreeSet.mem_union_of_right h)

/-- A lock is taken, released if a comparison holds, and then a global is written. -/
def unlockOnOneBranch : List Command :=
  [.global "m" 0, .global "g" 0, .declare "main" 0, .declare "mutex_lock" 1,
    .declare "mutex_unlock" 1, .const 0, .body 0, .block 0, .block 0,
    .append 0 0 (.call (.direct 1) [0]), .append 0 0 (.load 1), .append 0 0 (.compare .eq 9 7),
    .append 0 0 (.branch 10 1 2),
    .append 0 1 (.call (.direct 2) [0]), .append 0 1 (.jump 2),
    .append 0 2 (.store 1 7), .append 0 2 (.ret none)]

/-- On the way over the unlock the lock is not held at the write. -/
theorem not_holds_unlockOnOneBranch (hs : s.program = Builder.ofScript unlockOnOneBranch)
    (halias : s.pointers.mayAlias 0 0 = true) : ¬s.Holds 0 [0, 1, 2, 3, 4, 5] := by
  have hrel : s.Releases 0 4 := by
    refine ⟨?_, 0, ?_, halias⟩ <;> rw [hs] <;> decide +kernel
  have hlocks : ∀ l ∈ [0, 1, 2, 3, 4, 5],
      (Builder.ofScript unlockOnOneBranch).isLock l = true → l = 0 := by decide +kernel
  rintro ⟨xs, l, ys, heq, ⟨hlock, -⟩, hys⟩
  rw [hs] at hlock
  have hl : l = 0 := hlocks l (by rw [heq]; simp) hlock
  cases xs with
  | nil =>
    obtain ⟨-, rfl⟩ := List.cons.inj heq
    exact (hys 4 (by decide)).2 hrel
  | cons x xs =>
    have hmem : l ∈ [1, 2, 3, 4, 5] := by
      rw [(List.cons.inj heq).2]
      simp
    rw [hl] at hmem
    simp at hmem

/-- What is recorded for the write: the lock is among the locks held, and yet it is not. -/
theorem unlockOnOneBranch_spec : ∃ s locks, (Builder.ofScript unlockOnOneBranch).Finished ∧
    Subject.prepare (Builder.ofScript unlockOnOneBranch) {} = .ok s ∧
    (Builder.ofScript unlockOnOneBranch).SingleBody 0 ∧
    (∀ i, ∀ f ∈ s.pointers.callees i,
      ((Builder.ofScript unlockOnOneBranch).func f).isDeclaration = true) ∧
    (analyze s).of? 6 = some locks ∧ 0 ∈ locks ∧ ¬MustHold s 0 0 6 := by
  have hfin : (Builder.ofScript unlockOnOneBranch).Finished :=
    Builder.finished_ofScript (by decide +kernel)
  have hbody : (Builder.ofScript unlockOnOneBranch).SingleBody 0 :=
    .of_table (by decide +kernel) (by decide +kernel) (by decide +kernel)
  have hrun : (Subject.prepare (Builder.ofScript unlockOnOneBranch) {}).toOption.map (fun s =>
      s.pointers.mayAlias 0 0 &&
      (s.pointers.calleeMap.toList.all fun e => e.2.toList.all fun f =>
        ((Builder.ofScript unlockOnOneBranch).func f).isDeclaration) &&
      (region s (unlocksOf s (sitesOf s {} 0) {0}) ∅ 1).contains 6 &&
      !(unlocksOf s (sitesOf s {} 0) {0}).contains 6) = some true := by
    decide +kernel
  cases hs : Subject.prepare (Builder.ofScript unlockOnOneBranch) {} with
  | error e => simp [hs, Except.toOption] at hrun
  | ok s =>
    have h := Subject.prepared hs
    simp only [hs, Except.toOption, Option.map_some, Option.some.injEq, Bool.and_eq_true,
      Bool.not_eq_true', List.all_eq_true] at hrun
    obtain ⟨⟨⟨halias, hcallees⟩, hregion⟩, hunlocks⟩ := hrun
    have hcalls : ∀ i, ∀ f ∈ s.pointers.callees i,
        ((Builder.ofScript unlockOnOneBranch).func f).isDeclaration = true := by
      intro i f hf
      obtain ⟨fs, hfs, hf⟩ := IdMap.mem_getD_iff.1 (TreeSet.mem_toList.1 hf)
      exact hcallees (i, fs) (TreeMap.mem_toList_iff_getElem?_eq_some.2 hfs) f
        (TreeSet.mem_toList.2 hf)
    have hheld : 0 ∈ (analyze s).held.getD 6 ∅ := by
      refine (mem_held_iff h hbody rfl hfin.wellFormed hcalls).2 ⟨0, 1, ?_, by decide +kernel, ?_⟩
      · exact ⟨by decide +kernel, 0, by decide +kernel, by decide +kernel⟩
      · refine mem_protectedFrom_iff.2 ⟨mem_spreadFrom_of_mem_region ?_ ?_, ?_, ?_⟩
        · rw [h.program]
          decide +kernel
        · exact TreeSet.contains_iff_mem.1 hregion
        · rw [h.program]
          decide +kernel
        · rw [← TreeSet.contains_iff_mem, hunlocks]
          simp
    obtain ⟨locks, hlocks, hmem⟩ := IdMap.mem_getD_iff.1 hheld
    refine ⟨s, locks, hfin, rfl, hbody, hcalls, hlocks, hmem, fun hmust => ?_⟩
    refine not_holds_unlockOnOneBranch h.program halias (hmust _ ?_)
    rw [h.program]
    exact ⟨by decide +kernel, by decide +kernel, by decide +kernel⟩

/-- Recorded locks are not always held, not even without cycles. -/
theorem not_forall_mustHold : ¬∀ (p : Program) (c : Config) (s : Subject) (main : FuncId),
    p.Finished → Subject.prepare p c = .ok s → c.localLocksets = false → p.SingleBody main →
    p.Acyclic → (∀ i, ∀ f ∈ s.pointers.callees i, (p.func f).isDeclaration = true) →
    ∀ i q locks, p.isInteresting i = true → (analyze s).of? i = some locks → q ∈ locks →
      MustHold s main q i := by
  intro hall
  obtain ⟨s, locks, hfin, hs, hbody, hcalls, hlocks, hmem, hnot⟩ := unlockOnOneBranch_spec
  have hacyclic : (Builder.ofScript unlockOnOneBranch).Acyclic :=
    Program.acyclic_of_lt (by decide +kernel)
  exact hnot (hall _ _ s 0 hfin hs rfl hbody hacyclic hcalls 6 0 locks
    (by decide +kernel) hlocks hmem)

/-- At the write the lock is not held on entry: control gets there from the unlock. -/
theorem not_heldOnEntry_unlockOnOneBranch : ∃ s locks,
    Subject.prepare (Builder.ofScript unlockOnOneBranch) {} = .ok s ∧
    (analyze s).of? 6 = some locks ∧ 0 ∈ locks ∧ ¬HeldOnEntry s 0 0 6 := by
  obtain ⟨s, locks, hfin, hs, hbody, hcalls, hlocks, hmem, hnot⟩ := unlockOnOneBranch_spec
  refine ⟨s, locks, hs, hlocks, hmem, fun hentry => hnot ?_⟩
  exact (mustHold_iff_heldOnEntry hfin hs rfl hbody hcalls hlocks hmem).2 hentry

end Locksets

end DataRace
