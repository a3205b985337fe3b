import DataRace.Proofs.Call.Inheritance
import DataRace.Proofs.Call.Visits
import DataRace.Proofs.PointsTo.Denote

/-!
# DataRace.Proofs.Lockset.CommonLock

When a common lock is one lock.

Two instructions have a common lock if pointers to locks held at both must
alias, that is, denote the same object.  What is not asked is whether that object
is a local variable of a function that leads back to itself.  Such a function
has the object once for each of its activations, and two of them do not exclude
each other.

* `Subject.isSingleton_iff_of_denotes` — which objects exist once;
* `Locksets.haveCommon_single_iff` — when a common lock is one lock;
* `Locksets.not_forall_haveCommon_single` — a recursive function with a lock of
  its own.
-/

namespace DataRace

open Std Relation

/-! ## locals of recursive functions -/

/-- An object is a local variable of a function that leads back to itself over calls and forks. -/
def Subject.LocalOfCycle (s : Subject) (o : ObjId) : Prop :=
  ∃ i fields, (s.pointers.obj o).origin = .alloc i ∧ s.program.op i = .alloc false fields ∧
    TransGen (fun a b => ∃ e ∈ s.calls.edges, e.caller = a ∧ e.callee = b)
      (s.program.funcOf i) (s.program.funcOf i)

theorem PointsTo.ExistsOnce.lt {t : PointsTo} {o : Nat} (h : t.ExistsOnce o) : o < t.objs.size := by
  by_contra hle
  have hheap := h.notHeap
  rw [PointsTo.obj, ObjectTable.get, Table.getD_of_size_le (Nat.le_of_not_lt hle)] at hheap
  cases hheap

theorem Subject.isSingleton_iff_of_denotes {p : Program} {c : Config} {s : Subject} {v : ValueId}
    {o : ObjId} (hp : p.Finished) (h : s.Prepared p c) (hv : s.pointers.Denotes v o) :
    s.isSingleton v = true ↔ ¬s.LocalOfCycle o := by
  obtain rfl := h.program
  have hrec (f : Nat) : f ∈ s.recursive ↔
      TransGen (fun a b => ∃ e ∈ s.calls.edges, e.caller = a ∧ e.callee = b) f f := by
    rw [h.recursive, h.components]
    exact (Components.ofGraph_sorts h.defined).mem_recursiveFunctions_iff h.defined
  rw [Subject.isSingleton, hv.isSingleton_iff, PointsTo.stack_iff hp h.pointers hv.once.lt]
  simp only [hrec, LocalOfCycle]

/-! ## common locks -/

namespace Locksets

variable {p : Program} {c : Config} {s : Subject} {l : Locksets} {i j : InstId} {q : ValueId}

/-- A lock is recorded as held at an instruction. -/
def Records (l : Locksets) (i : InstId) (q : ValueId) : Prop :=
  ∃ locks, l.of? i = some locks ∧ q ∈ locks

theorem haveCommon_iff : haveCommon s l i j = true ↔
    ∃ a b, l.Records i a ∧ l.Records j b ∧ s.pointers.mustAlias a b = true := by
  unfold haveCommon Records
  cases hi : l.of? i with
  | none => simp
  | some u =>
    cases hj : l.of? j with
    | none => simp
    | some v =>
      simp only [IdSet.any_iff, Option.some.injEq, exists_eq_left', exists_and_left]

/-- **A common lock is one lock** exactly if, where there is one at all, some pointers recorded as
held at both instructions denote the same object, and that is no local variable of a function that
leads back to itself. -/
theorem haveCommon_single_iff (hp : p.Finished) (hs : Subject.prepare p c = .ok s) :
    (haveCommon s (analyze s) i j = true → ∃ a b, (analyze s).Records i a ∧
      (analyze s).Records j b ∧ s.pointers.mustAlias a b = true ∧ s.isSingleton a = true) ↔
    (haveCommon s (analyze s) i j = true → ∃ a b o, (analyze s).Records i a ∧
      (analyze s).Records j b ∧ s.pointers.Denotes a o ∧ s.pointers.Denotes b o ∧
      ¬s.LocalOfCycle o) := by
  have h := Subject.prepared hs
  refine imp_congr_right fun _ => exists₂_congr fun a b => ?_
  constructor
  · rintro ⟨ha, hb, halias, hsingle⟩
    obtain ⟨o, hao, hbo⟩ := PointsTo.mustAlias_iff.1 halias
    exact ⟨o, ha, hb, hao, hbo, (Subject.isSingleton_iff_of_denotes hp h hao).1 hsingle⟩
  · rintro ⟨o, ha, hb, hao, hbo, hnot⟩
    exact ⟨ha, hb, PointsTo.mustAlias_iff.2 ⟨o, hao, hbo⟩,
      (Subject.isSingleton_iff_of_denotes hp h hao).2 hnot⟩

/-- Every common lock is one lock if no lock recorded at one of the instructions denotes a local
variable of a function that leads back to itself. -/
theorem exists_single_of_haveCommon (hp : p.Finished) (hs : Subject.prepare p c = .ok s)
    (hlocks : ∀ a o, (analyze s).Records i a → s.pointers.Denotes a o → ¬s.LocalOfCycle o)
    (hcommon : haveCommon s (analyze s) i j = true) : ∃ a b, (analyze s).Records i a ∧
      (analyze s).Records j b ∧ s.pointers.mustAlias a b = true ∧ s.isSingleton a = true := by
  refine (haveCommon_single_iff hp hs).2 (fun _ => ?_) hcommon
  obtain ⟨a, b, ha, hb, halias⟩ := haveCommon_iff.1 hcommon
  obtain ⟨o, hao, hbo⟩ := PointsTo.mustAlias_iff.1 halias
  exact ⟨a, b, o, ha, hb, hao, hbo, hlocks a o ha hao⟩

/-! ## a lock in a recursive function -/

/-- A lock of a site is recorded as held at the next instruction, unless that one may release it. -/
theorem records_of_site (hmode : s.config.localLocksets = false) {f : FuncId} {k : ComponentId}
    (hk : k ∈ s.topDown) (hf : f ∈ (s.components.get k).members) {site root : Nat} {locks : IdSet}
    (hsite : ((s.bottomUp.foldl (summarise s) {}).sites.getD f {}).locks[site]? = some locks)
    (hq : q ∈ locks) (hroot : s.program.nextInst site = some root)
    (hlt : root < s.program.insts.size) (hint : s.program.isInteresting root = true)
    (hunlock : root ∉ unlocksOf s ((s.bottomUp.foldl (summarise s) {}).sites.getD f {}) locks) :
    (analyze s).Records root q := by
  have hmem : f ∈ s.topDown.flatMap fun c => (s.components.get c).members :=
    List.mem_flatMap.2 ⟨k, hk, hf⟩
  obtain ⟨before, after, horder⟩ := List.append_of_mem hmem
  refine IdMap.mem_getD_iff.1 ?_
  rw [analyze_eq_foldl hmode, horder, List.foldl_append, List.foldl_cons]
  refine mem_held_foldl_of_mem _ (mem_held_protectFunction_of_start (r := (root, locks)) ?_ hq ?_)
  · refine List.mem_append_right _ (List.mem_filterMap.2 ⟨(site, locks), ?_, by rw [hroot]; rfl⟩)
    rw [sites_foldl]
    exact TreeMap.mem_toList_iff_getElem?_eq_some.2 hsite
  · rw [sites_foldl]
    exact mem_protectedFrom_self hlt hint hunlock

/-- A lock is one of some site. -/
def FromSite (l : Locksets) (q : ValueId) : Prop :=
  ∃ f site, q ∈ (l.sites.getD f {}).locks.getD site ∅

/-- The locks at the entry of a function come from its calls, all others from its sites. -/
theorem fromSite_of_mem_held_protectFunction {f : FuncId}
    (hheld : ∀ i q, q ∈ l.held.getD i ∅ → l.FromSite q)
    (h : q ∈ (protectFunction s l f).held.getD i ∅) : l.FromSite q := by
  rw [protectFunction_eq, mem_getD_foldl_protect] at h
  obtain h | ⟨r, hr, -, hq⟩ := h
  · exact hheld i q h
  · rcases List.mem_append.1 hr with hentry | hsite
    · split at hentry
      · cases hentry
      · obtain ⟨root, -, rfl⟩ := Option.map_eq_some_iff.1 (Option.mem_toList.1 hentry)
        obtain ⟨hne, hcalls⟩ := mem_atEntry_iff.1 hq
        obtain ⟨call, hcall⟩ := List.exists_mem_of_ne_nil _ hne
        exact hheld call q (hcalls call hcall)
    · obtain ⟨⟨site, locks⟩, hmem, hnext⟩ := List.mem_filterMap.1 hsite
      obtain ⟨root, -, rfl⟩ := Option.map_eq_some_iff.1 hnext
      exact ⟨f, site,
        IdMap.mem_getD_iff.2 ⟨locks, TreeMap.mem_toList_iff_getElem?_eq_some.1 hmem, hq⟩⟩

theorem fromSite_of_records (hmode : s.config.localLocksets = false)
    (h : (analyze s).Records i q) : (s.bottomUp.foldl (summarise s) {}).FromSite q := by
  have hfold (fs : List FuncId) {l : Locksets} (hheld : ∀ i q, q ∈ l.held.getD i ∅ → l.FromSite q) :
      ∀ i q, q ∈ (fs.foldl (protectFunction s) l).held.getD i ∅ → l.FromSite q := by
    induction fs generalizing l with
    | nil => exact hheld
    | cons f fs ih =>
      have hstep := @ih (protectFunction s l f)
      simp only [FromSite, sites_protectFunction] at hstep
      exact hstep fun i q hq => fromSite_of_mem_held_protectFunction hheld hq
  have hq : q ∈ (analyze s).held.getD i ∅ := IdMap.mem_getD_iff.2 h
  rw [analyze_eq_foldl hmode] at hq
  refine hfold _ (fun i q hnone => ?_) i q hq
  rw [held_summarised] at hnone
  exact absurd hnone TreeSet.not_mem_emptyc

/-- Two threads run a function that calls itself while it holds a lock; 2 is a global lock and 16
one of its own. -/
def lockInRecursion (lock : ValueId) : Program := Builder.ofScript
  [.global "t" 0, .global "g" 0, .global "m" 0, .declare "f" 1, .declare "main" 0,
    .declare "thread_create" 3, .declare "mutex_lock" 1, .declare "mutex_unlock" 1, .const 1, .null,
    .body 0, .append 0 0 (.alloc false 0), .append 0 0 (.call (.direct 3) [lock]),
    .append 0 0 (.store 1 14), .append 0 0 (.call (.direct 0) [4]),
    .append 0 0 (.call (.direct 4) [lock]), .append 0 0 (.ret none),
    .body 1, .append 1 1 (.call (.direct 2) [0, 3, 15]), .append 1 1 (.call (.direct 0) [15]),
    .append 1 1 (.ret none)]

/-- Whether a lock is taken in front of the write, and no other one anywhere. -/
def takenInRecursion (lock : ValueId) (s : Subject) : Bool :=
  let l := s.bottomUp.foldl (summarise s) {}
  let t := l.sites.getD 0 {}
  s.topDown.any (fun k => (s.components.get k).members.contains 0) &&
    t.locks[1]?.any (fun locks => locks.contains lock && !(unlocksOf s t locks).contains 2) &&
    s.program.nextInst 1 == some 2 && s.program.isInteresting 2 && s.pointers.mustAlias lock lock &&
    l.sites.toList.all fun e => e.2.locks.toList.all fun e => e.2.toList.all (· == lock)

theorem takenInRecursion_spec {lock : ValueId} (hmode : s.config.localLocksets = false)
    (hwf : s.program.WellFormed) (h : takenInRecursion lock s = true) :
    (analyze s).Records 2 lock ∧ haveCommon s (analyze s) 2 2 = true ∧
      ∀ i q, (analyze s).Records i q → q = lock := by
  simp only [takenInRecursion, Bool.and_eq_true, List.any_eq_true, Option.any_eq_true,
    List.contains_iff_mem, TreeSet.contains_iff_mem, Bool.not_eq_true', beq_iff_eq,
    List.all_eq_true] at h
  obtain ⟨⟨⟨⟨⟨⟨k, hk, hf⟩, locks, hlocks, hlock, hunlock⟩, hnext⟩, hint⟩, halias⟩, hall⟩ := h
  have hrecords : (analyze s).Records 2 lock := by
    refine records_of_site hmode hk hf hlocks hlock hnext
      (Program.nextInst_spec hwf hnext).1 hint ?_
    rw [← TreeSet.contains_iff_mem, hunlock]
    exact Bool.false_ne_true
  refine ⟨hrecords, haveCommon_iff.2 ⟨lock, lock, hrecords, hrecords, halias⟩, fun i q hq => ?_⟩
  obtain ⟨f, site, hq⟩ := fromSite_of_records hmode hq
  obtain ⟨locks', hsite, hq⟩ := IdMap.mem_getD_iff.1 hq
  rw [TreeMap.getD_eq_getD_getElem?] at hsite
  cases hget : (s.bottomUp.foldl (summarise s) {}).sites[f]? with
  | none => simp [hget] at hsite
  | some t =>
    rw [hget, Option.getD_some] at hsite
    exact hall (f, t) (TreeMap.mem_toList_iff_getElem?_eq_some.2 hget) (site, locks')
      (TreeMap.mem_toList_iff_getElem?_eq_some.2 hsite) q (TreeSet.mem_toList.2 hq)

/-- With a global lock, the common lock of the write in both threads is one lock. -/
theorem haveCommon_single_lockInRecursion : ∃ s, Subject.prepare (lockInRecursion 2) {} = .ok s ∧
    haveCommon s (analyze s) 2 2 = true ∧ ∃ a b, (analyze s).Records 2 a ∧
      (analyze s).Records 2 b ∧ s.pointers.mustAlias a b = true ∧ s.isSingleton a = true := by
  have hfin : (lockInRecursion 2).Finished := Builder.finished_ofScript (by decide +kernel)
  have heval : (Subject.prepare (lockInRecursion 2) {}).toOption.any (fun s =>
      takenInRecursion 2 s && s.pointers.mustAlias 2 2 &&
        (s.pointers.only? 2).all fun o => (s.pointers.obj o).origin == .global 2) = true := by
    decide +kernel
  obtain ⟨s, hs, heval⟩ := exists_of_any_toOption heval
  have h := Subject.prepared hs
  simp only [Bool.and_eq_true, Option.all_eq_true, beq_iff_eq] at heval
  obtain ⟨⟨htaken, halias⟩, horigin⟩ := heval
  obtain ⟨hrecords, hcommon, -⟩ := takenInRecursion_spec (by rw [h.config])
    (h.program ▸ hfin.wellFormed) htaken
  obtain ⟨o, ho⟩ := PointsTo.mustAlias_self_iff.1 halias
  have hnot : ¬s.LocalOfCycle o := by
    rintro ⟨i, fields, halloc, -⟩
    rw [horigin o (PointsTo.only?_eq_some_iff.2 ho.mem_iff)] at halloc
    cases halloc
  exact ⟨s, hs, hcommon, (haveCommon_single_iff hfin hs).2
    (fun _ => ⟨2, 2, o, hrecords, hrecords, ho, ho, hnot⟩) hcommon⟩

/-- A lock of a recursive function counts as one, although each of its activations has its own. -/
theorem not_forall_haveCommon_single : ¬∀ (p : Program) (c : Config) (s : Subject) (i j : InstId),
    p.Finished → Subject.prepare p c = .ok s → haveCommon s (analyze s) i j = true →
      ∃ a b, (analyze s).Records i a ∧ (analyze s).Records j b ∧
        s.pointers.mustAlias a b = true ∧ s.isSingleton a = true := by
  intro hall
  have hfin : (lockInRecursion 16).Finished := Builder.finished_ofScript (by decide +kernel)
  have heval : (Subject.prepare (lockInRecursion 16) {}).toOption.any (fun s =>
      takenInRecursion 16 s && !s.isSingleton 16) = true := by
    decide +kernel
  obtain ⟨s, hs, heval⟩ := exists_of_any_toOption heval
  have h := Subject.prepared hs
  rw [Bool.and_eq_true, Bool.not_eq_true'] at heval
  obtain ⟨-, hcommon, honly⟩ := takenInRecursion_spec (by rw [h.config])
    (h.program ▸ hfin.wellFormed) heval.1
  obtain ⟨a, b, ha, -, -, hsingle⟩ := hall _ _ s 2 2 hfin hs hcommon
  rw [honly 2 a ha, heval.2] at hsingle
  cases hsingle

end Locksets

end DataRace
