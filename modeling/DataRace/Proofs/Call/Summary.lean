import DataRace.Barrier
import DataRace.Proofs.Flow.Through
import DataRace.Proofs.Lockset.Entry
import DataRace.Proofs.Program.Script

/-!
# DataRace.Proofs.Call.Summary

What the summaries of locks and barriers say about the ways through a function.

Callees first, a function is summarised by the locks it leaves acquired and the
barriers it waits at.  It gets them from instructions that dominate its return,
so every way through the function passes one such instruction: a lock or wait
of its own, or a call that brings the fact from a callee.  A call brings what
any of its callees has, although only one of them runs.  So a function may get
a lock that not all its ways acquire (`not_forall_passesAll`); what its
summary says holds on all ways if its calls agree on it (`Founded`).

* `IdMap.exists_turn` — a summary is final when it is computed;
* `Locksets.founded_of_mustAcquire`, `Barriers.founded_of_mustWait` — where summaries come from;
* `Subject.founded` — both together.
-/

namespace DataRace

open Std

/-! ## tables with one entry for each step -/

namespace IdMap

variable {σ α : Type} {table : σ → IdMap α} {step : σ → Nat → σ} {value : σ → Nat → α}
  {ks : List Nat} {x : σ} {j k : Nat} {a : α}

section

variable (hstep : ∀ x k, table (step x k) = (table x).insert k (value x k))

include hstep

theorem getElem?_foldl_of_not_mem (hj : j ∉ ks) :
    (table (ks.foldl step x))[j]? = (table x)[j]? := by
  induction ks generalizing x with
  | nil => rfl
  | cons k ks ih =>
    rw [List.mem_cons, not_or] at hj
    rw [List.foldl_cons, ih hj.2, hstep, TreeMap.getElem?_insert]
    simp [Ne.symm hj.1]

/-- An entry is made at its turn from entries that are never changed. -/
theorem exists_turn (hnodup : ks.Nodup) (hempty : ∀ j : Nat, (table x)[j]? = none)
    (h : (table (ks.foldl step x))[k]? = some a) : ∃ y, a = value y k ∧
      ∀ (j : Nat) (b : α), (table y)[j]? = some b → (table (ks.foldl step x))[j]? = some b := by
  have hk : k ∈ ks := by
    by_contra hnot
    rw [getElem?_foldl_of_not_mem hstep hnot, hempty] at h
    cases h
  obtain ⟨pre, post, rfl⟩ := List.append_of_mem hk
  obtain ⟨-, hrest, hdisjoint⟩ := List.nodup_append.1 hnodup
  have hpost := (List.nodup_cons.1 hrest).1
  refine ⟨pre.foldl step x, ?_, fun j b hj => ?_⟩
  · rw [List.foldl_append, List.foldl_cons, getElem?_foldl_of_not_mem hstep hpost, hstep,
      TreeMap.getElem?_insert_self, Option.some.injEq] at h
    exact h.symm
  · have hpre : j ∈ pre := by
      by_contra hnot
      rw [getElem?_foldl_of_not_mem hstep hnot, hempty] at hj
      cases hj
    rw [List.foldl_append, getElem?_foldl_of_not_mem hstep fun hmem => hdisjoint j hpre j hmem rfl]
    exact hj

end

end IdMap

/-! ## what a call may reach -/

theorem Program.isBarrierWait_of_barrierPtr {p : Program} {i : InstId} {v : ValueId}
    (h : p.barrierPtr i = some v) : p.isBarrierWait i = true := by
  simp only [barrierPtr, mainArg, entryArg, bind, Option.bind_eq_some_iff] at h
  obtain ⟨e, he, k, hk, -⟩ := h
  have hcall : p.libraryCall? i = some e.kind := by rw [libraryCall?, he, Option.map_some]
  rw [isBarrierWait, hcall]
  cases hkind : e.kind <;> simp_all

/-- A call that waits at a barrier, casts aside. -/
def Program.WaitsFor (p : Program) (barrier : ValueId) (i : InstId) : Prop :=
  p.isBarrierWait i = true ∧ ∃ v, p.barrierPtr i = some v ∧ p.stripCasts v = barrier

namespace Subject

/-- Some function that a call may reach has a property. -/
def SomeCallee (s : Subject) (P : FuncId → Prop) (i : InstId) : Prop :=
  s.program.isCall i = true ∧ ∃ g ∈ s.pointers.callees i, P g

/-- All functions that a call may reach have a property, and there is one. -/
def AllCallees (s : Subject) (P : FuncId → Prop) (i : InstId) : Prop :=
  s.program.isCall i = true ∧ s.pointers.callees i ≠ [] ∧ ∀ g ∈ s.pointers.callees i, P g

/-- Every way through a function passes an instruction that has an effect of its own, or a call all
of whose callees have it. -/
def PassesAll (s : Subject) (f : FuncId) (own : InstId → Prop) (P : FuncId → Prop) : Prop :=
  ∀ run, s.program.WayThrough f run → ∃ i ∈ run, own i ∨ s.AllCallees P i

/-- Where a summary gets an effect from. -/
structure Founded (s : Subject) (f : FuncId) (own : InstId → Prop) (P : FuncId → Prop) : Prop where
  /-- There is one instruction that every way passes and that has the effect of its own, or may
  reach a function that has it. -/
  passed : ∃ i ∈ s.program.funcInsts f, (∀ run, s.program.WayThrough f run → i ∈ run) ∧
    (own i ∨ s.SomeCallee P i)
  /-- If the calls of the function agree, there is no doubt. -/
  agreed : (∀ i ∈ s.program.funcInsts f, s.SomeCallee P i → s.AllCallees P i) → s.PassesAll f own P

variable {p : Program} {c : Config} {s : Subject} {f : FuncId} {own : InstId → Prop}
  {P : FuncId → Prop}

theorem Prepared.flow_ret (h : s.Prepared p c) {r : InstId} (hr : (s.flow f).ret = some r) :
    p.returnOf f = some r := by
  by_cases hf : f < p.funcs.size
  · rw [h.flow hf] at hr
    exact hr
  · have hnone : s.flow f = default := by
      rw [Subject.flow, h.flows]
      simp [Program.funcIds, Array.getD_eq_getD_getElem?, hf]
    rw [hnone] at hr
    cases hr

/-- An effect is founded by an instruction that dominates the return. -/
theorem Founded.of_dominates (hp : p.Finished) (h : s.Prepared p c) {i r : InstId}
    (hi : i ∈ p.funcInsts f) (hr : (s.flow f).ret = some r) (hdom : s.dominates i r = true)
    (hown : own i → p.isCall i = true) (hsite : own i ∨ s.SomeCallee P i) : s.Founded f own P := by
  obtain rfl := h.program
  have hphi := Program.isPhi_of_isCall (hsite.elim hown And.left)
  have hpass (run : List InstId) (hway : s.program.WayThrough f run) : i ∈ run :=
    mem_of_wayThrough hp h hway hi hphi (h.flow_ret hr) hdom
  exact ⟨⟨i, hi, hpass, hsite⟩,
    fun hagree run hway => ⟨i, hpass run hway, hsite.imp_right (hagree i hi)⟩⟩

theorem mem_calleesAt (h : s.Prepared p c) {i : InstId} {g : FuncId}
    (hg : g ∈ s.calls.calleesAt i) :
    p.isCall i = true ∧ g ∈ s.pointers.callees i := by
  obtain ⟨e, he, rfl⟩ := List.mem_map.1 hg
  obtain ⟨hat, hfork⟩ := List.mem_filter.1 he
  obtain ⟨hedge, hsite⟩ := List.mem_filter.1 hat
  obtain rfl : e.site = i := of_decide_eq_true hsite
  rw [h.calls] at hedge
  obtain ⟨-, hcall, -, -, ⟨-, hcallee⟩ | ⟨hstart, -⟩⟩ := CallGraph.mem_edges_iff.1 hedge
  · exact ⟨hcall, hcallee⟩
  · simp [hstart] at hfork

theorem nodup_bottomUp : s.bottomUp.Nodup := List.nodup_range.filter _

/-- Outside recursion a function is the only member of its component. -/
theorem Prepared.eq_of_mem_members (h : s.Prepared p c) (hrec : s.components.isRecursive f = false)
    {k : ComponentId} (hk : s.components.of? f = some k) {g : FuncId}
    (hg : g ∈ (s.components.get k).members) : g = f := by
  obtain ⟨hclass, hmem, -⟩ := h.class_of_of? hk
  refine hclass.eq_of_mem ?_ hg hmem
  simpa [Components.isRecursive, hk] using hrec

end Subject

/-! ## locks -/

namespace Locksets

/-- The summary of a function has a lock that it leaves acquired. -/
def MustAcquire (s : Subject) (f : FuncId) (q : ValueId) : Prop :=
  ∃ u, (analyze s).acquiredBy s f = some u ∧ q ∈ u

section

variable {s : Subject} {l : Locksets} {f : FuncId} {i q : Nat}

/-- The summary that a component gets. -/
def summaryAt (s : Subject) (l : Locksets) (k : ComponentId) : LockSummary :=
  (summarise s l k).summaries.getD k {}

theorem summaries_summarise (l : Locksets) (k : Nat) :
    (summarise s l k).summaries = l.summaries.insert k (summaryAt s l k) := by
  rw [summaryAt]
  unfold summarise
  split <;> simp

theorem summaries_protectFunction : (protectFunction s l f).summaries = l.summaries := by
  rw [protectFunction_eq]
  exact List.foldlRecOn (motive := fun l' : Locksets => l'.summaries = l.summaries) _ _ rfl
    fun _ hl' _ _ => hl'

theorem summaries_protectLocally : (protectLocally s l f).summaries = l.summaries := by
  unfold protectLocally
  refine List.foldlRecOn (motive := fun l' : Locksets => l'.summaries = l.summaries) _ _ rfl
    fun l' hl' site _ => ?_
  split <;> exact hl'

/-- Spreading locks leaves the summaries alone. -/
theorem summaries_analyze :
    (analyze s).summaries = (s.bottomUp.foldl (summarise s) {}).summaries := by
  unfold analyze
  refine List.foldlRecOn (motive := fun l : Locksets => l.summaries =
    (s.bottomUp.foldl (summarise s) {}).summaries) _ _ rfl fun l hl k _ => ?_
  refine List.foldlRecOn (motive := fun l : Locksets => l.summaries =
    (s.bottomUp.foldl (summarise s) {}).summaries) _ _ hl fun l' hl' f _ => ?_
  split
  · exact summaries_protectLocally.trans hl'
  · exact summaries_protectFunction.trans hl'

theorem mustAcquire_iff : MustAcquire s f q ↔
    ((s.bottomUp.foldl (summarise s) {}).acquiredBy s f).any (·.contains q) = true := by
  have hsame : (analyze s).acquiredBy s f = (s.bottomUp.foldl (summarise s) {}).acquiredBy s f := by
    simp only [acquiredBy, summaryOf, summaries_analyze]
  simp only [MustAcquire, hsame, Option.any_eq_true, TreeSet.contains_iff_mem]

/-- The locks a site gets from a callee, when functions are summarised. -/
def Brings (s : Subject) (l : Locksets) (q : ValueId) (i : InstId) : Prop :=
  ∃ g ∈ s.calls.calleesAt i, ∃ u, l.summaryOf s g = some u ∧ q ∈ u.acquired

theorem mem_locks_addSite_iff {t : LockSites} {j : Nat} : q ∈ (addSite s l t j).locks.getD i ∅ ↔
    q ∈ t.locks.getD i ∅ ∨ j = i ∧ (s.program.Takes q i ∨ Brings s l q i) := by
  have hfold (us : List LockSummary) (t : LockSites) : q ∈ (us.foldl (fun t u =>
      { locks := if u.acquired.isEmpty then t.locks else t.locks.addAllTo j u.acquired
        unlocks := if u.released.isEmpty then t.unlocks else t.unlocks.addAllTo j u.released }) t :
        LockSites).locks.getD i ∅ ↔ q ∈ t.locks.getD i ∅ ∨ j = i ∧ ∃ u ∈ us, q ∈ u.acquired := by
    induction us generalizing t with
    | nil => simp
    | cons u us ih =>
      rw [List.foldl_cons, ih]
      by_cases hu : u.acquired.isEmpty = true
      · have hnot : q ∉ u.acquired := TreeSet.isEmpty_iff_forall_not_mem.1 hu q
        simp [hu, hnot]
      · simp [hu, IdMap.mem_getD_addAllTo, or_assoc, ← and_or_left]
  have heq : addSite s l t j = ((s.calls.calleesAt j).filterMap (l.summaryOf s)).foldl (fun t u =>
      { locks := if u.acquired.isEmpty then t.locks else t.locks.addAllTo j u.acquired
        unlocks := if u.released.isEmpty then t.unlocks else t.unlocks.addAllTo j u.released })
      (addSite s {} t j) := by
    rw [addSite_start]
    rfl
  rw [heq, hfold, mem_locks_addSite, or_assoc, ← and_or_left]
  refine or_congr_right (and_congr_right fun hj => or_congr_right ?_)
  subst hj
  simp only [Brings, List.mem_filterMap]
  constructor
  · rintro ⟨u, ⟨g, hg, hu⟩, hq⟩
    exact ⟨g, hg, u, hu, hq⟩
  · rintro ⟨g, hg, u, hu, hq⟩
    exact ⟨u, ⟨g, hg, hu⟩, hq⟩

theorem mem_locks_sitesOf_iff : q ∈ (sitesOf s l f).locks.getD i ∅ ↔
    i ∈ s.program.funcInsts f ∧ (s.program.Takes q i ∨ Brings s l q i) := by
  rw [sitesOf, mem_getD_foldl (g := LockSites.locks) mem_locks_addSite_iff]
  simp

/-- A lock that a function leaves acquired is taken where the return is dominated, and kept. -/
theorem exists_of_mem_effectsOf (hq : q ∈ (effectsOf s (sitesOf s l f) f).acquired) :
    ∃ i r locks, (s.flow f).ret = some r ∧ s.dominates i r = true ∧ i ∈ s.program.funcInsts f ∧
      (s.program.Takes q i ∨ Brings s l q i) ∧ q ∈ locks ∧
      keepsAcquired s (sitesOf s l f) i locks r = true := by
  unfold effectsOf at hq
  split at hq
  · exact absurd hq TreeSet.not_mem_emptyc
  · next r hr =>
    obtain ⟨e, he, hq⟩ := (IdSet.mem_foldl_union.1 hq).resolve_left TreeSet.not_mem_emptyc
    obtain ⟨he, hkeeps⟩ := List.mem_filter.1 he
    rw [Bool.and_eq_true] at hkeeps
    have hget := IdMap.getD_of_getElem? (b := ∅) (TreeMap.mem_toList_iff_getElem?_eq_some.1 he)
    obtain ⟨hi, hsite⟩ := mem_locks_sitesOf_iff.1 (hget ▸ hq)
    exact ⟨e.1, r, e.2, hr, hkeeps.1, hi, hsite, hq, hkeeps.2⟩

/-- A component leaves acquired what its members do. -/
theorem exists_of_mem_summaryAt {k : ComponentId} (hq : q ∈ (summaryAt s l k).acquired) :
    ∃ g ∈ (s.components.get k).members, q ∈ (effectsOf s (sitesOf s l g) g).acquired := by
  unfold summaryAt summarise at hq
  split at hq
  · simp only [TreeMap.getD_insert_self] at hq
    exact absurd hq TreeSet.not_mem_emptyc
  · simp only [TreeMap.getD_insert_self] at hq
    revert hq
    refine List.foldlRecOn (motive := fun u : LockSummary => q ∈ u.acquired →
      ∃ g ∈ (s.components.get k).members, q ∈ (effectsOf s (sitesOf s l g) g).acquired) _ _ ?_ ?_
    · exact fun h => absurd h TreeSet.not_mem_emptyc
    · intro u ih x hx hq
      obtain ⟨g, hg, rfl⟩ := List.mem_map.1 hx
      exact (TreeSet.mem_union_iff.1 hq).elim ih fun hq => ⟨g, hg, hq⟩

end

/-- Outside recursion the summary of a function has the effects of its sites.  When they were found,
the summaries of its callees were what they are in the end. -/
theorem exists_of_mustAcquire {p : Program} {c : Config} {s : Subject} {f : FuncId} {q : ValueId}
    (h : s.Prepared p c) (hrec : s.components.isRecursive f = false) (hq : MustAcquire s f q) :
    ∃ l, q ∈ (effectsOf s (sitesOf s l f) f).acquired ∧
      ∀ g u, l.summaryOf s g = some u → (analyze s).summaryOf s g = some u := by
  obtain ⟨locks, hlocks, hq⟩ := hq
  obtain ⟨u, hu, rfl⟩ := Option.map_eq_some_iff.1 hlocks
  obtain ⟨k, hk, hu⟩ := Option.bind_eq_some_iff.1 hu
  rw [summaries_analyze] at hu
  obtain ⟨l, rfl, hfinal⟩ := IdMap.exists_turn summaries_summarise Subject.nodup_bottomUp
    (fun _ => TreeMap.getElem?_emptyc) hu
  obtain ⟨g, hg, hq⟩ := exists_of_mem_summaryAt hq
  obtain rfl := h.eq_of_mem_members hrec hk hg
  refine ⟨l, hq, fun g' u' hu' => ?_⟩
  obtain ⟨k', hk', hu'⟩ := Option.bind_eq_some_iff.1 hu'
  rw [summaryOf, hk', summaries_analyze]
  exact hfinal k' u' hu'

/-- **A lock that a function leaves acquired** is taken or brought at one place that all ways
pass. -/
theorem founded_of_mustAcquire {p : Program} {c : Config} {s : Subject} {f : FuncId} {q : ValueId}
    (hp : p.Finished) (h : s.Prepared p c) (hrec : s.components.isRecursive f = false)
    (hq : MustAcquire s f q) : s.Founded f (p.Takes q) fun g => MustAcquire s g q := by
  obtain rfl := h.program
  obtain ⟨l, hq, hfinal⟩ := exists_of_mustAcquire h hrec hq
  obtain ⟨i, r, -, hr, hdom, hi, hsite, -, -⟩ := exists_of_mem_effectsOf hq
  refine .of_dominates hp h hi hr hdom (fun htakes => ?_) (hsite.imp_right ?_)
  · exact Program.isCall_of_libraryCall (eq_of_beq htakes.1)
  · rintro ⟨g, hg, u, hu, hq⟩
    obtain ⟨hcall, hcallee⟩ := Subject.mem_calleesAt h hg
    exact ⟨hcall, g, hcallee, u.acquired, congrArg _ (hfinal g u hu), hq⟩

end Locksets

/-! ## barriers -/

namespace Barriers

/-- The summary of a function has a barrier that it waits at. -/
def MustWait (s : Subject) (f : FuncId) (x : ValueId) : Prop :=
  ∃ u, (analyze s).mustWait s f = some u ∧ x ∈ u

section

variable {s : Subject} {b : Barriers} {f : FuncId} {i x : Nat}

/-- The barriers that a component gets as its summary. -/
def waitsOf (s : Subject) (b : Barriers) (k : ComponentId) : IdSet :=
  (summarise s b k).waits.getD k ∅

theorem waits_summarise (b : Barriers) (k : Nat) :
    (summarise s b k).waits = b.waits.insert k (waitsOf s b k) := by
  rw [waitsOf]
  unfold summarise
  simp

theorem waits_place : (place s b f).waits = b.waits := by
  unfold place
  refine List.foldlRecOn (motive := fun b' : Barriers => b'.waits = b.waits) _ _ ?_
    fun _ hb' _ _ => hb'
  refine List.foldlRecOn (motive := fun b' : Barriers => b'.waits = b.waits) _ _ ?_
    fun _ hb' _ _ => hb'
  exact List.foldlRecOn (motive := fun b' : Barriers => b'.waits = b.waits) _ _ rfl
    fun _ hb' _ _ => hb'

/-- Placing code on the sides of barriers leaves the summaries alone. -/
theorem waits_analyze : (analyze s).waits = (s.bottomUp.foldl (summarise s) {}).waits := by
  unfold analyze
  refine List.foldlRecOn (motive := fun b : Barriers => b.waits =
    (s.bottomUp.foldl (summarise s) {}).waits) _ _ rfl fun b hb k _ => ?_
  exact List.foldlRecOn (motive := fun b : Barriers => b.waits =
    (s.bottomUp.foldl (summarise s) {}).waits) _ _ hb fun _ hb' f _ => waits_place.trans hb'

/-- The barriers a site gets from a callee, when functions are summarised. -/
def Brings (s : Subject) (b : Barriers) (x : ValueId) (i : InstId) : Prop :=
  ∃ g ∈ s.calls.calleesAt i, ∃ u, b.mustWait s g = some u ∧ x ∈ u

theorem mem_waitsAt_iff : x ∈ b.waitsAt s i ↔ s.program.WaitsFor x i ∨ Brings s b x i := by
  refine (IdSet.mem_foldl_union (f := id)).trans ?_
  rw [TreeSet.mem_ofList, List.contains_iff_mem, List.mem_map]
  simp only [List.mem_filterMap, Option.mem_toList, id_eq]
  refine or_congr ?_ ?_
  · constructor
    · rintro ⟨v, hv, rfl⟩
      exact ⟨Program.isBarrierWait_of_barrierPtr hv, v, hv, rfl⟩
    · rintro ⟨-, v, hv, rfl⟩
      exact ⟨v, hv, rfl⟩
  · constructor
    · rintro ⟨u, ⟨g, hg, hu⟩, hx⟩
      exact ⟨g, hg, u, hu, hx⟩
    · rintro ⟨g, hg, u, hu, hx⟩
      exact ⟨u, ⟨g, hg, hu⟩, hx⟩

theorem mem_sitesOf (hx : x ∈ (b.sitesOf s f).getD i ∅) :
    i ∈ s.program.funcInsts f ∧ x ∈ b.waitsAt s i := by
  have hfold (is : List InstId) (m : IdMap IdSet) (hx : x ∈ (is.foldl (fun m i =>
      if (b.waitsAt s i).isEmpty then m else m.insert i (b.waitsAt s i)) m).getD i ∅) :
      x ∈ m.getD i ∅ ∨ i ∈ is ∧ x ∈ b.waitsAt s i := by
    induction is generalizing m with
    | nil => exact .inl hx
    | cons j js ih =>
      rcases ih _ hx with hone | ⟨hi, hmem⟩
      · dsimp only at hone
        split at hone
        · exact .inl hone
        · rw [IdMap.getD_insert] at hone
          split at hone
          · next hj => exact .inr ⟨hj ▸ List.mem_cons_self, hj ▸ hone⟩
          · exact .inl hone
      · exact .inr ⟨List.mem_cons_of_mem j hi, hmem⟩
  exact (hfold _ _ hx).resolve_left fun hnone => by simp at hnone

/-- A barrier that a function waits at is waited at where the return is dominated. -/
theorem exists_of_mem_waitedIn (hx : x ∈ waitedIn s f (b.sitesOf s f)) :
    ∃ i r, (s.flow f).ret = some r ∧ s.dominates i r = true ∧ i ∈ s.program.funcInsts f ∧
      (s.program.WaitsFor x i ∨ Brings s b x i) := by
  unfold waitedIn at hx
  split at hx
  · exact absurd hx TreeSet.not_mem_emptyc
  · next r hr =>
    rw [TreeMap.foldl_eq_foldl_toList] at hx
    revert hx
    refine List.foldlRecOn (motive := fun u : IdSet => x ∈ u → ∃ i r', (s.flow f).ret = some r' ∧
      s.dominates i r' = true ∧ i ∈ s.program.funcInsts f ∧
      (s.program.WaitsFor x i ∨ Brings s b x i)) _ _ (fun h => absurd h TreeSet.not_mem_emptyc) ?_
    intro u ih e he hx
    split at hx
    · next hdom =>
      refine (TreeSet.mem_union_iff.1 hx).elim ih fun hx => ?_
      have hget := IdMap.getD_of_getElem? (b := ∅) (TreeMap.mem_toList_iff_getElem?_eq_some.1 he)
      obtain ⟨hi, hsite⟩ := mem_sitesOf (hget ▸ hx)
      exact ⟨e.1, r, hr, hdom, hi, mem_waitsAt_iff.1 hsite⟩
    · exact ih hx

/-- A component waits at the barriers that its members wait at. -/
theorem exists_of_mem_waitsOf {k : ComponentId} (hx : x ∈ waitsOf s b k) :
    ∃ g ∈ (s.components.get k).members, x ∈ waitedIn s g (b.sitesOf s g) := by
  unfold waitsOf summarise at hx
  simp only [TreeMap.getD_insert_self] at hx
  revert hx
  refine List.foldlRecOn (motive := fun u : IdSet => x ∈ u →
    ∃ g ∈ (s.components.get k).members, x ∈ waitedIn s g (b.sitesOf s g)) _ _ ?_ ?_
  · exact fun h => absurd h TreeSet.not_mem_emptyc
  · intro u ih e he hx
    obtain ⟨g, hg, rfl⟩ := List.mem_map.1 he
    exact (TreeSet.mem_union_iff.1 hx).elim ih fun hx => ⟨g, hg, hx⟩

end

/-- **A barrier that a function waits at** is waited at, or brought, at one place that all ways
pass. -/
theorem founded_of_mustWait {p : Program} {c : Config} {s : Subject} {f : FuncId} {x : ValueId}
    (hp : p.Finished) (h : s.Prepared p c) (hrec : s.components.isRecursive f = false)
    (hx : MustWait s f x) : s.Founded f (p.WaitsFor x) fun g => MustWait s g x := by
  obtain rfl := h.program
  obtain ⟨u, hu, hx⟩ := hx
  obtain ⟨k, hk, hu⟩ := Option.bind_eq_some_iff.1 hu
  rw [waits_analyze] at hu
  obtain ⟨b, rfl, hfinal⟩ := IdMap.exists_turn waits_summarise Subject.nodup_bottomUp
    (fun _ => TreeMap.getElem?_emptyc) hu
  obtain ⟨g, hg, hx⟩ := exists_of_mem_waitsOf hx
  obtain rfl := h.eq_of_mem_members hrec hk hg
  obtain ⟨i, r, hr, hdom, hi, hsite⟩ := exists_of_mem_waitedIn hx
  refine .of_dominates hp h hi hr hdom (fun hwaits => ?_) (hsite.imp_right ?_)
  · exact Program.isCall_of_libraryCall (eq_of_beq hwaits.1)
  · rintro ⟨g', hg', u', hu', hx'⟩
    obtain ⟨k', hk', hu'⟩ := Option.bind_eq_some_iff.1 hu'
    obtain ⟨hcall, hcallee⟩ := Subject.mem_calleesAt h hg'
    refine ⟨hcall, g', hcallee, u', ?_, hx'⟩
    rw [mustWait, hk', waits_analyze]
    exact hfinal k' u' hu'

end Barriers

/-! ## both together -/

namespace Subject

/-- **Summaries are founded**: whatever lock or barrier the summary of a function outside recursion
has, all ways through the function pass one place that takes it or waits at it, or calls a function
that may be one whose summary has it; and where the calls of the function agree, one whose summary
has it. -/
theorem founded {p : Program} {c : Config} {s : Subject} {f : FuncId} (hp : p.Finished)
    (hs : prepare p c = .ok s) (hrec : s.components.isRecursive f = false) :
    (∀ q, Locksets.MustAcquire s f q → s.Founded f (p.Takes q) fun g =>
      Locksets.MustAcquire s g q) ∧
      ∀ x, Barriers.MustWait s f x → s.Founded f (p.WaitsFor x) fun g => Barriers.MustWait s g x :=
  ⟨fun _ => Locksets.founded_of_mustAcquire hp (prepared hs) hrec,
    fun _ => Barriers.founded_of_mustWait hp (prepared hs) hrec⟩

end Subject

/-! ## a call that takes a lock in one of two callees -/

/-- `main` calls through a pointer to two functions, one of which takes a lock; `other` is what the
other one does, and `loaded` the value of the pointer. -/
def lockThroughPointer (other : List Command) (loaded : ValueId) : List Command :=
  [.global "m" 0, .global "fp" 0, .declare "acquire" 0, .declare "other" 0, .declare "main" 0,
    .declare "mutex_lock" 1,
    .body 0, .append 0 0 (.call (.direct 3) [0]), .append 0 0 (.ret none), .body 1] ++ other ++
  [.append 1 1 (.ret none),
    .body 2, .append 2 2 (.store 1 2), .append 2 2 (.store 1 3), .append 2 2 (.load 1),
    .append 2 2 (.call (.indirect loaded) []), .append 2 2 (.ret none)]

/-- The other function does nothing. -/
def lockInOne : Program := Builder.ofScript (lockThroughPointer [] 8)

/-- The other function takes the lock, too. -/
def lockInBoth : Program :=
  Builder.ofScript (lockThroughPointer [.append 1 1 (.call (.direct 3) [0])] 9)

namespace Subject

/-- What a summary has is not brought about on every way by all callees of a call. -/
theorem not_forall_passesAll : ¬∀ (p : Program) (c : Config) (s : Subject) (f : FuncId),
    p.Finished → prepare p c = .ok s → s.isAnalyzable f = true →
    s.components.isRecursive f = false →
    (∀ q, Locksets.MustAcquire s f q → s.PassesAll f (p.Takes q) fun g =>
      Locksets.MustAcquire s g q) ∧
      ∀ x, Barriers.MustWait s f x → s.PassesAll f (p.WaitsFor x) fun g =>
        Barriers.MustWait s g x := by
  intro hall
  have hfin : lockInOne.Finished := Builder.finished_ofScript (by decide +kernel)
  have heval : (prepare lockInOne {}).toOption.any (fun s =>
      s.isAnalyzable 2 && !s.components.isRecursive 2 && s.pointers.callees 6 == [0, 1] &&
        ((s.bottomUp.foldl (Locksets.summarise s) {}).acquiredBy s 2).any (·.contains 0) &&
        !((s.bottomUp.foldl (Locksets.summarise s) {}).acquiredBy s 1).any (·.contains 0)) =
        true := by
    decide +kernel
  obtain ⟨s, hs, heval⟩ := exists_of_any_toOption heval
  simp only [Bool.and_eq_true, Bool.not_eq_true', beq_iff_eq] at heval
  obtain ⟨⟨⟨⟨hlive, hrec⟩, hcallees⟩, hmust⟩, hnot⟩ := heval
  have hprog := (prepared hs).program
  have hway : s.program.WayThrough 2 [3, 4, 5, 6, 7] := by
    rw [hprog]
    decide +kernel
  obtain ⟨i, hi, hsite⟩ :=
    (hall _ _ s 2 hfin hs hlive hrec).1 0 (Locksets.mustAcquire_iff.2 hmust) _ hway
  have hown : ∀ i ∈ [3, 4, 5, 6, 7], lockInOne.isLock i = false := by decide +kernel
  have hcall : ∀ i ∈ [3, 4, 5, 6, 7], lockInOne.isCall i = true → i = 6 := by decide +kernel
  rcases hsite with ⟨hlock, -⟩ | ⟨hiscall, -, hcalled⟩
  · rw [hown i hi] at hlock
    cases hlock
  · rw [hprog] at hiscall
    obtain rfl := hcall i hi hiscall
    have hother := Locksets.mustAcquire_iff.1 (hcalled 1 (by rw [hcallees]; decide))
    rw [hnot] at hother
    cases hother

/-- If both functions take the lock, all ways take it. -/
theorem passesAll_lockInBoth : ∃ s, prepare lockInBoth {} = .ok s ∧
    s.components.isRecursive 2 = false ∧ Locksets.MustAcquire s 2 0 ∧
    s.PassesAll 2 (lockInBoth.Takes 0) fun g => Locksets.MustAcquire s g 0 := by
  have hfin : lockInBoth.Finished := Builder.finished_ofScript (by decide +kernel)
  have heval : (prepare lockInBoth {}).toOption.any (fun s =>
      !s.components.isRecursive 2 && s.pointers.callees 7 == [0, 1] && [0, 1, 2].all fun f =>
        ((s.bottomUp.foldl (Locksets.summarise s) {}).acquiredBy s f).any (·.contains 0)) =
        true := by
    decide +kernel
  obtain ⟨s, hs, heval⟩ := exists_of_any_toOption heval
  simp only [Bool.and_eq_true, Bool.not_eq_true', beq_iff_eq, List.all_eq_true] at heval
  obtain ⟨⟨hrec, hcallees⟩, hmust⟩ := heval
  have hprog := (prepared hs).program
  have hacquire (f : FuncId) (hf : f ∈ [0, 1, 2]) : Locksets.MustAcquire s f 0 :=
    Locksets.mustAcquire_iff.2 (hmust f hf)
  have hcall : ∀ i ∈ lockInBoth.funcInsts 2, lockInBoth.isCall i = true → i = 7 := by decide +kernel
  refine ⟨s, hs, hrec, hacquire 2 (by decide),
    ((founded hfin hs hrec).1 0 (hacquire 2 (by decide))).agreed ?_⟩
  rintro i hi ⟨hiscall, -⟩
  rw [hprog] at hi
  obtain rfl := hcall i hi (hprog ▸ hiscall)
  refine ⟨hiscall, by rw [hcallees]; decide, fun g hg => hacquire g ?_⟩
  rw [hcallees] at hg
  exact List.mem_of_mem_take (i := 2) hg

end Subject

end DataRace
