import DataRace.Guard.Exclusion
import DataRace.Proofs.Parallel.Closure
import DataRace.Proofs.PointsTo.Denote
import DataRace.Proofs.PointsTo.Narrow

/-!
# DataRace.Proofs.Guard.Change

Where a global may change between two loads of it.

Two loads are taken to read one value unless some site at which the global is
stored to leads to one of them and not to the other.  The sites are the stores to
the address of the global itself and the calls through which these may run.  So a
store between the loads is noticed if it does not lead to the first of them
(`mayDiffer_of_changesAt`).  It may be missed if it does, as in a loop around both,
or if it goes through another pointer.

* `changesAt_iff` — the sites at which a pointer is stored to;
* `covers_codeAfter_iff` — the code after a site;
* `forall_mayDiffer_iff` — loads of a global that may differ whatever else runs beside them;
* `not_forall_mayDiffer` — a store in a loop that is missed.
-/

namespace DataRace

open Std Relation

namespace Subject

/-- What may run after a site: what control gets to in its function, and the functions that are
called or started from there. -/
def MayReach (s : Subject) (site i : InstId) : Prop :=
  TransGen s.program.Follows site i ∨ ∃ e ∈ s.calls.edges,
    TransGen s.program.Follows site e.site ∧ s.calls.Reaches e.callee (s.program.funcOf i)

/-- An instruction stores to a pointer. -/
def StoresTo (s : Subject) (ptr : ValueId) (i : InstId) : Prop :=
  ∃ val, s.program.op i = .store ptr val

/-- A pointer is stored to at a site: by the site itself, or by code that it leads to as a call in
live code. -/
def ChangesAt (s : Subject) (ptr : ValueId) (site : InstId) : Prop :=
  s.StoresTo ptr site ∨ ∃ f i, site ∈ s.callSites f ∧ s.StoresTo ptr i ∧
    s.calls.Reaches f (s.program.funcOf i)

/-- An object may be written between two instructions: on some path of control between them a store
runs, or a call that sets or copies memory, through a pointer that may point to the object. -/
def Overwritten (s : Subject) (o : ObjId) (i j : InstId) : Prop :=
  ∃ w, TransGen s.program.Follows i w ∧ TransGen s.program.Follows w j ∧
    ∃ a ∈ Operations.accessesBy s.program false w, a.isWrite = true ∧ o ∈ s.pointers.of a.ptr

variable {p : Program} {c : Config} {s : Subject} {ops : Operations} {ptr g site i j : Nat}

section

variable (hp : s.program.Finished) (h : s.Prepared p c)

/-! ## the sites -/

include hp in
theorem mem_storesTo_iff : i ∈ s.storesTo ptr ↔ s.StoresTo ptr i := by
  rw [storesTo, List.mem_filter, hp.linked.mem_users_iff]
  constructor
  · rintro ⟨-, hstore⟩
    split at hstore
    · next q val hop => exact ⟨val, of_decide_eq_true hstore ▸ hop⟩
    · cases hstore
  · rintro ⟨val, hop⟩
    have hlt : i < s.program.insts.size := Program.lt_of_op_ne (by simp [hop])
    simp [hop, hlt, Operation.operands]

include hp h in
/-- What is reached backwards over calls and forks are the functions that lead to the start. -/
theorem mem_callers_iff {start : List FuncId} (hstart : ∀ f ∈ start, f < s.program.funcs.size)
    {f : FuncId} :
    f ∈ reachable s.program.funcs.size (fun f => (s.calls.edgesTo f).map (·.caller)) start ↔
      ∃ g ∈ start, s.calls.Reaches f g := by
  obtain rfl := h.program
  have hcaller {e : CallEdge} (he : e ∈ s.calls.edges) : e.caller < s.program.funcs.size := by
    obtain ⟨hlt, -, hcaller⟩ := h.edge_spec he
    exact hcaller ▸ Program.lt_of_defined (hp.wellFormed.defined_funcOf hlt)
  have hedge : Search.Edge s.program.funcs.size (fun f => (s.calls.edgesTo f).map (·.caller)) =
      Function.swap fun a b => ∃ e ∈ s.calls.edges, e.caller = a ∧ e.callee = b := by
    funext a b
    simp only [Search.Edge, CallGraph.edgesTo, List.mem_map, List.mem_filter, decide_eq_true_eq,
      Function.swap, eq_iff_iff]
    constructor
    · rintro ⟨⟨e, ⟨he, hcallee⟩, hcaller⟩, -⟩
      exact ⟨e, he, hcaller, hcallee⟩
    · rintro ⟨e, he, rfl, rfl⟩
      exact ⟨⟨e, ⟨he, rfl⟩, rfl⟩, hcaller he⟩
  rw [mem_reachable_iff, hedge]
  constructor
  · rintro ⟨g, hg, -, hreach⟩
    exact ⟨g, hg, reflTransGen_swap.1 hreach⟩
  · rintro ⟨g, hg, hreach⟩
    exact ⟨g, hg, hstart g hg, reflTransGen_swap.2 hreach⟩

include hp h in
/-- The sites that are looked at are those at which the pointer is stored to. -/
theorem changesAt_iff : site ∈ s.storesTo ptr ++ s.callsToStores ptr ↔ s.ChangesAt ptr site := by
  have hstart : ∀ f ∈ (s.storesTo ptr).map s.program.funcOf, f < s.program.funcs.size := by
    simp only [List.mem_map, forall_exists_index, and_imp]
    rintro _ i hi rfl
    obtain ⟨val, hop⟩ := (mem_storesTo_iff hp).1 hi
    exact Program.lt_of_defined (hp.wellFormed.defined_funcOf (Program.lt_of_op_ne (by simp [hop])))
  simp only [List.mem_append, callsToStores, List.mem_flatMap, TreeSet.mem_toList,
    mem_callers_iff hp h hstart, List.mem_map, mem_storesTo_iff hp, ChangesAt]
  refine or_congr_right ⟨?_, ?_⟩
  · rintro ⟨f, ⟨_, ⟨i, hi, rfl⟩, hreach⟩, hsite⟩
    exact ⟨f, i, hsite, hi, hreach⟩
  · rintro ⟨f, i, hsite, hi, hreach⟩
    exact ⟨f, ⟨_, ⟨i, hi, rfl⟩, hreach⟩, hsite⟩

include h in
/-- The sites are stores and calls of the program. -/
theorem ChangesAt.site_spec (hsite : s.ChangesAt ptr site) :
    site < s.program.insts.size ∧ (s.program.op site).isTerminator = false := by
  obtain rfl := h.program
  rcases hsite with ⟨val, hop⟩ | ⟨f, i, hsite, -⟩
  · exact ⟨Program.lt_of_op_ne (by simp [hop]), by rw [hop]; rfl⟩
  · obtain ⟨e, he, -, -, rfl, -⟩ := mem_callSites_iff.1 hsite
    obtain ⟨hlt, hcall, -⟩ := h.edge_spec he
    exact ⟨hlt, Program.isTerminator_of_isInteresting (Program.isInteresting_of_isCall hcall)⟩

/-! ## the code after a site -/

variable (hplaced : s.program.Placed)

include hp hplaced in
/-- Where nothing is cut off the code after an instruction is what control gets to. -/
theorem covers_after_noCut_iff (hsite : site < s.program.insts.size)
    (hterm : (s.program.op site).isTerminator = false) (hi : i < s.program.insts.size)
    (hint : s.program.isInteresting i = true) :
    (({} : Cut).after s.program ∅ site).covers s.program i = true ↔
      TransGen s.program.Follows site i := by
  constructor
  · intro hcov
    rcases Cut.covers_after hp hplaced Parallelism.framed_noCut hsite hterm hi hint hcov with
      hcov | ⟨hpath, -⟩
    · rw [CodeSet.covers_empty] at hcov
      cases hcov
    · exact TransGen.mono (p := s.program.Follows) (fun _ _ hstep => hstep.follows) _ _ hpath
  · intro hpath
    obtain ⟨hclosed, hpass⟩ := Cut.closed_empty.after hp hplaced hsite rfl
    have hpath : TransGen (({} : Cut).Step s.program) site i :=
      TransGen.mono (fun _ _ => Parallelism.step_noCut) _ _ hpath
    exact hclosed.covers_of_transGen hp hplaced hsite hterm rfl hpass hpath hi hint
      Parallelism.covers_noCut

include hp h hplaced in
/-- The code after a site is what the site leads to. -/
theorem covers_codeAfter_iff (hsite : site < s.program.insts.size)
    (hterm : (s.program.op site).isTerminator = false) (hi : i < s.program.insts.size)
    (hint : s.program.isInteresting i = true) :
    (s.codeAfter site).covers s.program i = true ↔ s.MayReach site i := by
  have hafter {k : Nat} (hk : k < s.program.insts.size) (hint : s.program.isInteresting k = true) :=
    covers_after_noCut_iff hp hplaced hsite hterm hk hint
  have hcall {e : CallEdge} (he : e ∈ s.calls.edges) :
      (({} : Cut).after s.program ∅ site).covers s.program e.site = true ↔
        TransGen s.program.Follows site e.site := by
    obtain rfl := h.program
    obtain ⟨hlt, hcall, -⟩ := h.edge_spec he
    exact hafter hlt (Program.isInteresting_of_isCall hcall)
  have hentered {f : FuncId} : f ∈ s.functionsFrom (s.enteredAt (s.program.funcOf site)
        ((({} : Cut).after s.program ∅ site).covers s.program)) ↔
      ∃ e ∈ s.calls.edges, TransGen s.program.Follows site e.site ∧ s.calls.Reaches e.callee f := by
    rw [h.mem_functionsFrom_iff fun f hf => ?_]
    · simp only [Parallelism.mem_enteredAt_iff hp hplaced h]
      constructor
      · rintro ⟨f, ⟨e, he, rfl, -, hcov⟩, hreach⟩
        exact ⟨e, he, (hcall he).1 hcov, hreach⟩
      · rintro ⟨e, he, hpath, hreach⟩
        have hfunc := (Program.lt_and_funcOf_of_transGen hp hplaced hsite hpath).2
        exact ⟨e.callee, ⟨e, he, rfl, hfunc, (hcall he).2 hpath⟩, hreach⟩
    · obtain ⟨e, he, rfl, -⟩ := (Parallelism.mem_enteredAt_iff hp hplaced h).1 hf
      exact h.program ▸ h.defined e he
  have hcovers : (s.codeAfter site).covers s.program i = true ↔
      (({} : Cut).after s.program ∅ site).covers s.program i = true ∨ s.program.funcOf i ∈
        s.functionsFrom (s.enteredAt (s.program.funcOf site)
          ((({} : Cut).after s.program ∅ site).covers s.program)) := by
    simp only [CodeSet.covers_iff, Cut.funcs_after, codeAfter]
    have hnone : s.program.funcOf i ∉ (∅ : CodeSet).funcs := TreeSet.not_mem_emptyc
    tauto
  rw [hcovers, hafter hi hint, hentered, MayReach]

/-! ## two loads -/

include hp h hplaced in
/-- Two accesses are split by a site that leads to one of them only. -/
theorem splits_iff (hi : i < s.program.insts.size) (hinti : s.program.isInteresting i = true)
    (hj : j < s.program.insts.size) (hintj : s.program.isInteresting j = true) :
    s.splits ptr i j = true ↔
      ∃ site, s.ChangesAt ptr site ∧ ¬(s.MayReach site i ↔ s.MayReach site j) := by
  rw [splits, List.any_eq_true]
  refine exists_congr fun site => ?_
  rw [changesAt_iff hp h]
  refine and_congr_right fun hsite => ?_
  obtain ⟨hlt, hterm⟩ := hsite.site_spec h
  rw [bne_iff_ne, ne_eq, Bool.eq_iff_iff, covers_codeAfter_iff hp h hplaced hlt hterm hi hinti,
    covers_codeAfter_iff hp h hplaced hlt hterm hj hintj]

end

theorem load_spec (hop : p.op i = .load ptr) : i < p.insts.size ∧ p.isInteresting i = true :=
  ⟨Program.lt_of_op_ne (by simp [hop]), by rw [Program.isInteresting, hop]; rfl⟩

/-- A partitioning of one object that no accesses race for. -/
def calm (o : ObjId) : Partitioning where
  parts := [{ id := 1, objs := {o}, accesses := [], risky := { budget := 1, all := false } }]

/-- Without races two loads of a pointer to one object differ only if they are split. -/
theorem mayDiffer_calm {o : ObjId} (hone : s.pointers.only? ptr = some o) :
    (calm o).mayDiffer s ops ptr i j = s.splits ptr i j := by
  simp [Partitioning.mayDiffer, calm, hone, RiskyPairs.isOverBudget, Partition.partners]

/-- **Loads of a global may differ whatever else runs beside them exactly if a site at which the
global is stored to leads to one of them only.** -/
theorem forall_mayDiffer_iff (hp : p.Finished) (hplaced : p.Placed)
    (hs : Subject.prepare p c = .ok s)
    (hg : g < p.globals.size) (hi : p.op i = .load (p.global g).addr)
    (hj : p.op j = .load (p.global g).addr) :
    (∀ m : Partitioning, m.mayDiffer s ops (p.global g).addr i j = true) ↔
      ∃ site, s.ChangesAt (p.global g).addr site ∧ ¬(s.MayReach site i ↔ s.MayReach site j) := by
  have h := Subject.prepared hs
  obtain rfl := h.program
  rw [← splits_iff hp h hplaced (load_spec hi).1 (load_spec hi).2 (load_spec hj).1 (load_spec hj).2]
  constructor
  · intro hall
    have hone : s.pointers.only? (s.program.global g).addr =
        some ((PointsTo.Solver.objects s.program).globalObj g) :=
      PointsTo.only?_eq_some_iff.2 fun {_} => PointsTo.mem_of_global_iff hp h.pointers hg
    exact mayDiffer_calm hone ▸ hall (calm _)
  · intro hsplit m
    rw [Partitioning.mayDiffer, hsplit, Bool.true_or]

/-- A site that runs between two loads and does not lead to the first of them is noticed. -/
theorem mayDiffer_of_changesAt (hp : p.Finished) (hplaced : p.Placed)
    (hs : Subject.prepare p c = .ok s) (hi : p.op i = .load ptr) (hj : p.op j = .load ptr)
    (hsite : s.ChangesAt ptr site) (hpath : TransGen p.Follows site j) (hfirst : ¬s.MayReach site i)
    (m : Partitioning) : m.mayDiffer s ops ptr i j = true := by
  have h := Subject.prepared hs
  obtain rfl := h.program
  have hsplit : s.splits ptr i j = true :=
    (splits_iff hp h hplaced (load_spec hi).1 (load_spec hi).2 (load_spec hj).1 (load_spec hj).2).2
      ⟨site, hsite, fun hiff => hfirst (hiff.2 (.inl hpath))⟩
  rw [Partitioning.mayDiffer, hsplit, Bool.true_or]

/-- A global is read, and then read, set and read again in a loop. -/
def setInLoop : List Command :=
  [.global "g" 0, .declare "main" 0, .const 1, .const 0, .body 0, .block 0, .block 0,
    .append 0 0 (.load 0), .append 0 0 (.jump 1), .append 0 1 (.load 0), .append 0 1 (.store 0 2),
    .append 0 1 (.load 0), .append 0 1 (.compare .eq 6 3), .append 0 1 (.branch 7 1 2),
    .append 0 2 (.ret none)]

/-- What is read before the loop may differ from what is read in it. -/
theorem forall_mayDiffer_setInLoop : ∃ s, Subject.prepare (Builder.ofScript setInLoop) {} = .ok s ∧
    ∀ m : Partitioning, m.mayDiffer s (.collect s) 0 0 4 = true := by
  have hfin : (Builder.ofScript setInLoop).Finished := Builder.finished_ofScript (by decide +kernel)
  have hplaced : (Builder.ofScript setInLoop).Placed := by decide +kernel
  have heval : (Subject.prepare (Builder.ofScript setInLoop) {}).toOption.any (fun s =>
      !(s.codeAfter 3).covers (Builder.ofScript setInLoop) 0) = true := by
    decide +kernel
  obtain ⟨s, hs, heval⟩ := exists_of_any_toOption heval
  have h := Subject.prepared hs
  have hfirst : ¬s.MayReach 3 0 := by
    rw [← covers_codeAfter_iff (h.program.symm ▸ hfin) h (h.program.symm ▸ hplaced)
      (by rw [h.program]; decide +kernel) (by rw [h.program]; decide +kernel)
      (by rw [h.program]; decide +kernel) (by rw [h.program]; decide +kernel), h.program]
    simpa using heval
  have hsecond : s.MayReach 3 4 := .inl (.single (by rw [h.program]; decide +kernel))
  have haddr : ((Builder.ofScript setInLoop).global 0).addr = 0 := by decide +kernel
  have hstore : s.ChangesAt ((Builder.ofScript setInLoop).global 0).addr 3 :=
    .inl ⟨2, by rw [haddr, h.program]; decide +kernel⟩
  have hall : ∀ m : Partitioning,
      m.mayDiffer s (.collect s) ((Builder.ofScript setInLoop).global 0).addr 0 4 = true :=
    (forall_mayDiffer_iff hfin hplaced hs (by decide +kernel) (by decide +kernel)
      (by decide +kernel)).2
      ⟨3, hstore, fun hboth => hfirst (hboth.2 hsecond)⟩
  rw [haddr] at hall
  exact ⟨s, hs, hall⟩

/-- Loads of a global with a store between them do not always count as loads that may differ: the
store leads to both of them once more. -/
theorem not_forall_mayDiffer :
    ¬∀ (p : Program) (c : Config) (s : Subject) (g i j : Nat), p.Finished →
    Subject.prepare p c = .ok s → g < p.globals.size → p.op i = .load (p.global g).addr →
    p.op j = .load (p.global g).addr → p.funcOf i = p.funcOf j →
    s.Overwritten (s.pointers.globalObj g) i j →
      ∀ m : Partitioning, m.mayDiffer s (.collect s) (p.global g).addr i j = true := by
  intro hall
  have hfin : (Builder.ofScript setInLoop).Finished := Builder.finished_ofScript (by decide +kernel)
  have heval : (Subject.prepare (Builder.ofScript setInLoop) {}).toOption.any (fun s =>
      !(Partitioning.of s (.collect s)).mayDiffer s (.collect s) 0 2 4 &&
        (s.pointers.of 0).contains (s.pointers.globalObj 0)) = true := by
    decide +kernel
  obtain ⟨s, hs, heval⟩ := exists_of_any_toOption heval
  have h := Subject.prepared hs
  simp only [Bool.and_eq_true, Bool.not_eq_true', TreeSet.contains_iff_mem] at heval
  obtain ⟨hsame, hobj⟩ := heval
  have hover : s.Overwritten (s.pointers.globalObj 0) 2 4 := by
    refine ⟨3, .single (by rw [h.program]; decide +kernel),
      .single (by rw [h.program]; decide +kernel), ⟨3, 0, true⟩, ?_, rfl, hobj⟩
    rw [h.program]
    decide +kernel
  have hdiffer :=
    hall _ {} s 0 2 4 hfin hs (by decide +kernel) (by decide +kernel) (by decide +kernel)
    (by decide +kernel) hover (.of s (.collect s))
  rw [show ((Builder.ofScript setInLoop).global 0).addr = 0 by decide +kernel, hsame] at hdiffer
  cases hdiffer

end Subject

end DataRace
