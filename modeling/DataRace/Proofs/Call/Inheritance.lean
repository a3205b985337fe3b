import DataRace.Guard.Exclusion
import DataRace.Proofs.Barrier.Entry
import DataRace.Proofs.Guard.Entry
import DataRace.Proofs.Lockset.Entry
import DataRace.Proofs.Lockset.Held
import DataRace.Proofs.Program.Script

/-!
# DataRace.Proofs.Call.Inheritance

What a function inherits at its entry from the ways of entering it.

Locks, guards and sides of barriers are handed down to a function when all its
ordinary calls in live functions share them.  Starts of threads are not asked:
a routine that is started as a thread, where nothing is held, inherits all the
same what its ordinary calls share (`not_forall_inheritsNothing`).  It inherits
nothing when they share nothing (`inheritsNothing_of_callsShareNothing`).
-/

namespace DataRace

open Std

namespace Subject

/-- The ordinary calls of a function share no lock, no guard and no side of a barrier. -/
structure CallsShareNothing (s : Subject) (f : FuncId) : Prop where
  locks : ∀ q, ¬Locksets.HeldAtCalls s (Locksets.analyze s) f q
  comparisons : ∀ fact, ¬s.GuardedAtCalls (Comparison.read s.program) f fact
  tests : ∀ fact, ¬s.GuardedAtCalls (GlobalTest.read s.program) f fact
  before : ∀ x, ¬Barriers.CallsIn s f ((Barriers.analyze s).sides.getD x {}).before
  after : ∀ x, ¬Barriers.CallsIn s f ((Barriers.analyze s).sides.getD x {}).after

/-- A function inherits nothing at its entry: what no lock site of its own reaches has no locks,
the guards of its blocks are their own whatever was asked before, and it is as a whole on no side
of a barrier. -/
structure InheritsNothing (s : Subject) (f : FuncId) : Prop where
  locks : ∀ i ∈ s.program.funcInsts f,
    ¬Locksets.SiteProtects s ((Locksets.analyze s).sites.getD f {}) i →
      (Locksets.analyze s).of? i = none
  comparisons : ∀ bs b, (s.program.block b).func = f →
    ((GuardTable.guards s (Comparison.read s.program) b).run
      (GuardTable.asked s (Comparison.read s.program) bs)).1 =
      s.guardsAt (Comparison.read s.program) b
  tests : ∀ bs b, (s.program.block b).func = f →
    ((GuardTable.guards s (GlobalTest.read s.program) b).run
      (GuardTable.asked s (GlobalTest.read s.program) bs)).1 =
      s.guardsAt (GlobalTest.read s.program) b
  before : ∀ x, f ∉ ((Barriers.analyze s).sides.getD x {}).before.funcs
  after : ∀ x, f ∉ ((Barriers.analyze s).sides.getD x {}).after.funcs

/-- A table adds no guards to those of a block if the calls of its function share none. -/
theorem guards_eq_guardsAt {φ ε : Type} [DecidableEq φ] {s : Subject} {read : Guard.Reader φ ε}
    {b : BlockId} (h : ∀ fact, ¬s.GuardedAtCalls read (s.program.block b).func fact)
    (bs : List BlockId) :
    ((GuardTable.guards s read b).run (GuardTable.asked s read bs)).1 = s.guardsAt read b := by
  obtain ⟨outer, houter, heq⟩ :=
    (GuardTable.ensures_guards b _ (GuardTable.backed_asked s read bs)).1
  have hnil : outer = [] := List.eq_nil_iff_forall_not_mem.2 fun g hg => h g.fact (houter g hg)
  rw [heq, hnil]
  rfl

variable {p : Program} {c : Config} {s : Subject} {f : FuncId}

/-- **A function inherits nothing** at its entry if its ordinary calls share nothing, as when there
are none. -/
theorem inheritsNothing_of_callsShareNothing (hp : p.Finished) (hs : prepare p c = .ok s)
    (hmode : c.localLocksets = false) (h : s.CallsShareNothing f) : s.InheritsNothing f := by
  have hprep := prepared hs
  obtain rfl := hprep.program
  refine { locks := fun i hi hsite => ?_, comparisons := fun bs b hb => ?_,
           tests := fun bs b hb => ?_, before := fun x hx => ?_, after := fun x hx => ?_ }
  · have hheld : i ∉ (Locksets.analyze s).held := by
      intro hheld
      have hmode' : s.config.localLocksets = false := by rw [hprep.config, hmode]
      rcases Locksets.protects_or_shared hp hmode' hi hheld with hsite' | ⟨q, hq⟩
      · exact hsite hsite'
      · exact h.locks q hq
    exact TreeMap.getElem?_eq_none hheld
  · subst hb
    exact guards_eq_guardsAt h.comparisons bs
  · subst hb
    exact guards_eq_guardsAt h.tests bs
  · exact h.before x ((Barriers.callsIn_of_mem_sides s x f).1 hx)
  · exact h.after x ((Barriers.callsIn_of_mem_sides s x f).2 hx)

end Subject

/-! ## a routine that is started and called -/

namespace Locksets

variable {s : Subject} {l : Locksets} {f : FuncId} {q : ValueId} {i : Nat}

theorem mem_protectedFrom_self {t : LockSites} {locks : IdSet} (hi : i < s.program.insts.size)
    (hint : s.program.isInteresting i = true) (hunlock : i ∉ unlocksOf s t locks) :
    i ∈ protectedFrom s t i locks := by
  refine mem_protectedFrom_iff.2 ⟨mem_spreadFrom_of_mem_region hi ?_, hint, hunlock⟩
  exact mem_reachable_iff.2 ⟨i, List.mem_singleton_self i, hi, .refl⟩

theorem mem_held_protectFunction_of_start {r : InstId × IdSet} (hr : r ∈ starts s l f)
    (hq : q ∈ r.2) (hi : i ∈ protectedFrom s (l.sites.getD f {}) r.1 r.2) :
    q ∈ (protectFunction s l f).held.getD i ∅ := by
  rw [protectFunction_eq, mem_getD_foldl_protect]
  exact .inr ⟨r, hr, hi, hq⟩

/-- The first instruction of a function that releases nothing runs with the locks that all its
ordinary calls hold. -/
theorem mem_held_protectFunction_of_heldAtCalls (hq : HeldAtCalls s l f q)
    (hfirst : (s.program.func f).entry.bind s.program.firstInst = some i)
    (hi : i < s.program.insts.size) (hint : s.program.isInteresting i = true)
    (hunlocks : (l.sites.getD f {}).unlocks.toList = []) :
    q ∈ (protectFunction s l f).held.getD i ∅ := by
  have hentry := mem_atEntry_iff.2 hq
  have hne : ¬(l.atEntry s f).isEmpty = true := by
    rw [TreeSet.isEmpty_eq_false_iff_exists_mem.2 ⟨q, hentry⟩]
    exact Bool.false_ne_true
  have hstart : (i, l.atEntry s f) ∈ starts s l f := by
    refine List.mem_append_left _ ?_
    rw [if_neg hne, hfirst]
    exact List.mem_singleton_self _
  refine mem_held_protectFunction_of_start hstart hentry (mem_protectedFrom_self hi hint ?_)
  rw [unlocksOf, hunlocks]
  exact TreeSet.not_mem_emptyc

/-- The instruction behind an unlock is not protected, unless protection starts there. -/
theorem not_mem_protectedFrom_of_nextInst (hp : s.program.WellFormed) {t : LockSites}
    {locks : IdSet} {root u : Nat} (hu : u ∈ unlocksOf s t locks) (hlt : u < s.program.insts.size)
    (hphi : (s.program.op u).isPhi = false) (hnext : s.program.nextInst u = some i)
    (hroot : i ≠ root) : i ∉ protectedFrom s t root locks := by
  intro hi
  have hfirst := Program.firstInst_ne_of_nextInst hp hlt hphi hnext
  rcases mem_spread_cases (mem_protectedFrom_iff.1 hi).1 with hin | hstack | ⟨b, hb⟩ |
    ⟨d, hd, hnot, hstep⟩
  · exact absurd hin TreeSet.not_mem_emptyc
  · exact hroot (List.mem_singleton.1 hstack)
  · exact hfirst b hb
  · obtain ⟨-, -, hb⟩ | ⟨-, hstep⟩ := Program.follows_cases hp hstep
    · exact hfirst _ hb
    · have hdlt := (lt_of_mem_spread hd).resolve_left TreeSet.not_mem_emptyc
      obtain rfl := Program.eq_of_nextInst_eq hp hlt hdlt hnext hstep
      exact hnot hu

end Locksets

namespace Subject

/-- A routine that writes a global is started as a thread and called with a lock, and then without
it if asked for. -/
def startedAndCalled (again : Bool) : List Command :=
  [.global "t" 0, .global "g" 0, .global "m" 0, .declare "main" 0, .declare "f" 1,
    .declare "thread_create" 3, .declare "mutex_lock" 1, .declare "mutex_unlock" 1, .const 0,
    .body 1, .append 1 0 (.store 1 14), .append 1 0 (.ret none),
    .body 0, .append 0 1 (.call (.direct 2) [0, 4, 14]), .append 0 1 (.call (.direct 3) [2]),
    .append 0 1 (.call (.direct 1) [14]), .append 0 1 (.call (.direct 4) [2])] ++
  (if again then [.append 0 1 (.call (.direct 1) [14])] else []) ++ [.append 0 1 (.ret none)]

/-- What is recorded for the write of the routine: the lock that its call holds, although no lock
site of its own reaches it. -/
theorem startedAndCalled_spec :
    ∃ s, prepare (Builder.ofScript (startedAndCalled false)) {} = .ok s ∧
    (∃ e ∈ s.calls.edges, e.fork = true ∧ e.callee = 1 ∧ s.calls.isLive e.caller = true) ∧
    ¬Locksets.SiteProtects s ((Locksets.analyze s).sites.getD 1 {}) 0 ∧
    2 ∈ (Locksets.analyze s).held.getD 0 ∅ := by
  have hrun : (prepare (Builder.ofScript (startedAndCalled false)) {}).toOption.any (fun s =>
      let l := s.bottomUp.foldl (Locksets.summarise s) {}
      s.calls.edges.any (fun e => e.fork && e.callee == 1 && s.calls.isLive e.caller) &&
      (s.topDown.flatMap fun c => (s.components.get c).members) == [0, 1] &&
      s.callSites 1 == [4] && (l.sites.getD 1 {}).locks.toList.isEmpty &&
      (l.sites.getD 1 {}).unlocks.toList.isEmpty &&
      (Locksets.starts s l 0).any fun r => r.1 == 4 && r.2.contains 2 &&
        !(Locksets.unlocksOf s (l.sites.getD 0 {}) r.2).contains 4) = true := by
    decide +kernel
  obtain ⟨s, hs, hrun⟩ := exists_of_any_toOption hrun
  simp only [Bool.and_eq_true, beq_iff_eq, List.isEmpty_iff, List.any_eq_true,
    Bool.not_eq_true', Prod.exists] at hrun
  obtain ⟨⟨⟨⟨⟨⟨e, he, ⟨hfork, hcallee⟩, hlive⟩, hvisits⟩, hcalls⟩, hlocks⟩, hunlocks⟩, start,
    locks, hmem, ⟨rfl, hq⟩, hunlock⟩ := hrun
  have hprep := prepared hs
  have hsize : s.program.insts.size = 7 := by
    rw [hprep.program]
    decide +kernel
  have hanalyze := Locksets.analyze_eq_foldl (s := s) (by rw [hprep.config])
  have hcall : 2 ∈ (Locksets.protectFunction s (s.bottomUp.foldl (Locksets.summarise s) {})
      0).held.getD 4 ∅ := by
    refine Locksets.mem_held_protectFunction_of_start hmem (TreeSet.contains_iff_mem.1 hq) ?_
    refine Locksets.mem_protectedFrom_self (i := 4) (by omega) ?_ ?_
    · rw [hprep.program]
      decide +kernel
    · rw [← TreeSet.contains_iff_mem, hunlock]
      exact Bool.false_ne_true
  refine ⟨s, hs, ⟨e, he, hfork, hcallee, hlive⟩, ?_, ?_⟩
  · rintro ⟨j, locks', root, hj, -⟩
    rw [hanalyze, Locksets.sites_foldl] at hj
    exact List.not_mem_nil (hlocks ▸ TreeMap.mem_toList_iff_getElem?_eq_some.2 hj)
  · rw [hanalyze, hvisits]
    refine Locksets.mem_held_protectFunction_of_heldAtCalls ?_ ?_ (by omega) ?_ ?_
    · rw [Locksets.HeldAtCalls, hcalls]
      exact ⟨List.cons_ne_nil _ _, fun i hi => List.mem_singleton.1 hi ▸ hcall⟩
    · rw [hprep.program]
      decide +kernel
    · rw [hprep.program]
      decide +kernel
    · rw [Locksets.sites_protectFunction]
      exact hunlocks

/-- A routine started as a thread inherits all the same the lock that its only call holds. -/
theorem not_forall_inheritsNothing : ¬∀ (p : Program) (c : Config) (s : Subject) (f : FuncId),
    p.Finished → prepare p c = .ok s → c.localLocksets = false →
    (∃ e ∈ s.calls.edges, e.fork = true ∧ e.callee = f ∧ s.calls.isLive e.caller = true) →
    s.InheritsNothing f := by
  intro hall
  obtain ⟨s, hs, hfork, hsites, hheld⟩ := startedAndCalled_spec
  have hfin : (Builder.ofScript (startedAndCalled false)).Finished :=
    Builder.finished_ofScript (by decide +kernel)
  have hbody : 0 ∈ s.program.funcInsts 1 := by
    rw [(prepared hs).program]
    decide +kernel
  have hnone := (hall _ _ s 1 hfin hs rfl hfork).locks 0 hbody hsites
  obtain ⟨locks, hlocks, -⟩ := IdMap.mem_getD_iff.1 hheld
  rw [Locksets.of?, hlocks] at hnone
  cases hnone

/-- Called again without the lock, the routine inherits nothing. -/
theorem inheritsNothing_startedAndCalled : ∃ s,
    (Builder.ofScript (startedAndCalled true)).Finished ∧
    prepare (Builder.ofScript (startedAndCalled true)) {} = .ok s ∧
    (∃ e ∈ s.calls.edges, e.fork = true ∧ e.callee = 1 ∧ s.calls.isLive e.caller = true) ∧
    s.callSites 1 = [4, 6] ∧ s.CallsShareNothing 1 ∧ s.InheritsNothing 1 := by
  have hfin : (Builder.ofScript (startedAndCalled true)).Finished :=
    Builder.finished_ofScript (by decide +kernel)
  have hrun : (prepare (Builder.ofScript (startedAndCalled true)) {}).toOption.any (fun s =>
      let l := s.bottomUp.foldl (Locksets.summarise s) {}
      s.calls.edges.any (fun e => e.fork && e.callee == 1 && s.calls.isLive e.caller) &&
      s.callSites 1 == [4, 6] && s.callSites 0 == [] &&
      ((l.sites.getD 0 {}).locks.toList.all fun e => s.program.nextInst e.1 == some 4 &&
        (Locksets.unlocksOf s (l.sites.getD 0 {}) e.2).contains 5) &&
      s.outcomesTo 1 == [] && (Barriers.analyze s).sides.toList.isEmpty) = true := by
    decide +kernel
  obtain ⟨s, hs, hrun⟩ := exists_of_any_toOption hrun
  simp only [Bool.and_eq_true, beq_iff_eq, List.isEmpty_iff, List.any_eq_true, List.all_eq_true,
    Prod.forall] at hrun
  obtain ⟨⟨⟨⟨⟨⟨e, he, ⟨hfork, hcallee⟩, hlive⟩, hcalls⟩, hmain⟩, hlocks⟩, houtcomes⟩, hsides⟩ :=
    hrun
  have hprep := prepared hs
  have hblock : s.program.blockOf 4 = 1 ∧ (s.program.block 1).func = 0 := by
    rw [hprep.program]
    decide +kernel
  have hlock (q : ValueId) : ¬Locksets.HeldAtCalls s (Locksets.analyze s) 1 q := by
    intro hq
    obtain ⟨locks, hheld, -⟩ := IdMap.mem_getD_iff.1 (hq.2 6 (by simp [hcalls]))
    have hmem : 6 ∈ (Locksets.analyze s).held :=
      TreeMap.mem_iff_isSome_getElem?.2 (by rw [hheld]; rfl)
    have hbody : 6 ∈ s.program.funcInsts 0 := by
      rw [hprep.program]
      decide +kernel
    have hmode : s.config.localLocksets = false := by rw [hprep.config]
    rcases Locksets.protects_or_shared (hprep.program ▸ hfin) hmode hbody hmem with
      ⟨j, locks, root, hj, hroot, hprot⟩ | ⟨q, hq⟩
    · rw [Locksets.analyze_eq_foldl hmode, Locksets.sites_foldl] at hj hprot
      obtain ⟨hfour, hunlock⟩ := hlocks j locks (TreeMap.mem_toList_iff_getElem?_eq_some.2 hj)
      obtain rfl := Option.some.inj (hfour.symm.trans hroot)
      refine Locksets.not_mem_protectedFrom_of_nextInst (u := 5) (hprep.program ▸ hfin.wellFormed)
        (TreeSet.contains_iff_mem.1 hunlock) ?_ ?_ ?_ (by decide) hprot <;>
        rw [hprep.program] <;> decide +kernel
    · exact hq.1 hmain
  have hguard {φ ε : Type} (read : Guard.Reader φ ε) (fact : φ) :
      ¬s.GuardedAtCalls read 1 fact := by
    intro hfact
    have hcall := hfact.2 4 (by simp [hcalls])
    rw [hblock.1] at hcall
    cases hcall with
    | own hg => simp [guardsAt, houtcomes] at hg
    | inherited hne _ => exact hne (hblock.2 ▸ hmain)
  have hside (side : BarrierSides → CodeSet) (hempty : side {} = ∅) (x : ValueId) :
      ¬Barriers.CallsIn s 1 (side ((Barriers.analyze s).sides.getD x {})) := by
    intro hin
    have hnone : (Barriers.analyze s).sides[x]? = none :=
      Option.eq_none_iff_forall_ne_some.2 fun y hy =>
        List.not_mem_nil (hsides ▸ TreeMap.mem_toList_iff_getElem?_eq_some.2 hy)
    have hcover := hin.2 4 (by simp [hcalls])
    rw [TreeMap.getD_eq_getD_getElem?, hnone, Option.getD_none, hempty] at hcover
    exact absurd hcover Bool.false_ne_true
  have hshare : s.CallsShareNothing 1 :=
    ⟨hlock, hguard _, hguard _, hside (·.before) rfl, hside (·.after) rfl⟩
  exact ⟨s, hfin, hs, ⟨e, he, hfork, hcallee, hlive⟩, hcalls, hshare,
    inheritsNothing_of_callsShareNothing hfin hs rfl hshare⟩

end Subject

end DataRace
