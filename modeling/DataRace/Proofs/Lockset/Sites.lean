import DataRace.Proofs.Call.Component
import DataRace.Proofs.Lockset.Spread
import DataRace.Proofs.PointsTo.Casts

/-!
# DataRace.Proofs.Lockset.Sites

Which locks are recorded as held in a program with one body.

Without calls between bodies no lock effect is summarised, and no lock is held
at the entry.  The sites of `main` are its own lock and unlock calls, and a lock
is recorded as held where the code it was spread over is protected
(`mem_held_iff`).
-/

namespace DataRace

open Std

/-- A call that takes a lock, casts aside. -/
def Program.Takes (p : Program) (lock : ValueId) (i : InstId) : Prop :=
  p.isLock i = true ∧ ∃ v, p.lockPtr i = some v ∧ p.stripCasts v = lock

/-- A call that may release a lock. -/
def Subject.Releases (s : Subject) (lock : ValueId) (i : InstId) : Prop :=
  s.program.isUnlock i = true ∧
    ∃ v, s.program.lockPtr i = some v ∧ s.pointers.mayAlias lock v = true

namespace Program

variable {p : Program}

theorem Takes.unique {a b i : Nat} (ha : p.Takes a i) (hb : p.Takes b i) : a = b := by
  obtain ⟨-, v, hv, rfl⟩ := ha
  obtain ⟨-, w, hw, rfl⟩ := hb
  rw [Option.some.inj (hv.symm.trans hw)]

theorem Takes.lt {q i : Nat} (h : p.Takes q i) : i < p.insts.size :=
  lt_of_isCall (isCall_of_libraryCall (eq_of_beq h.1))

/-- Every instruction is in the only body. -/
theorem SingleBody.mem_funcInsts {main : FuncId} (hb : p.SingleBody main) (hp : p.WellFormed)
    {i : Nat} (hi : i < p.insts.size) : i ∈ p.funcInsts main := by
  refine (mem_funcInsts_iff hp).2 ⟨hi, ?_⟩
  have hmem : p.blockOf i ∈ (p.func (p.block (p.blockOf i)).func).blocks :=
    hp.mem_blocks_iff.2 ⟨hp.blockOf_lt hi, rfl⟩
  rw [← hb.defined_iff, Function.isDeclaration, List.isEmpty_eq_false_iff]
  exact List.ne_nil_of_mem hmem

end Program

namespace Locksets

variable {s : Subject} {f : FuncId} {i q : Nat}

/-! ## the sites of a body -/

/-- Without summaries an instruction adds its own lock effect only. -/
theorem addSite_start (t : LockSites) : addSite s {} t i =
    match s.program.lockPtr i with
    | none => t
    | some v =>
      if s.program.isLock i then { t with locks := t.locks.addTo i (s.program.stripCasts v) }
      else { t with unlocks := t.unlocks.addTo i (s.program.stripCasts v) } := by
  have hnone (fs : List FuncId) : fs.filterMap (summaryOf s {}) = [] := by
    rw [List.filterMap_eq_nil_iff]
    intro f _
    simp [summaryOf, bind, Option.bind]
    cases s.components.of? f <;> rfl
  rw [addSite, hnone]
  rfl

/-- Adding instructions one by one adds what each of them does. -/
theorem mem_getD_foldl {g : LockSites → IdMap IdSet} {add : LockSites → InstId → LockSites}
    {Does : ValueId → InstId → Prop} (hadd : ∀ {t j i x}, x ∈ (g (add t j)).getD i ∅ ↔
      x ∈ (g t).getD i ∅ ∨ j = i ∧ Does x i) {is : List InstId} {t : LockSites} {x : Nat} :
    x ∈ (g (is.foldl add t)).getD i ∅ ↔ x ∈ (g t).getD i ∅ ∨ i ∈ is ∧ Does x i := by
  induction is generalizing t with
  | nil => simp
  | cons j js ih =>
    rw [List.foldl_cons, ih, hadd, List.mem_cons]
    grind

theorem mem_locks_addSite {t : LockSites} {j x : Nat} :
    x ∈ (addSite s {} t j).locks.getD i ∅ ↔
      x ∈ t.locks.getD i ∅ ∨ j = i ∧ s.program.Takes x i := by
  rw [addSite_start]
  split
  · next hptr =>
    refine ⟨.inl, fun h => h.elim id ?_⟩
    rintro ⟨rfl, -, v, hv, -⟩
    rw [hptr] at hv
    cases hv
  · next v hptr =>
    split
    · next hlock =>
      rw [IdMap.mem_getD_addTo]
      refine or_congr_right ⟨?_, ?_⟩
      · rintro ⟨rfl, hx⟩
        exact ⟨rfl, hlock, v, hptr, hx⟩
      · rintro ⟨rfl, -, w, hw, hx⟩
        rw [hptr] at hw
        cases hw
        exact ⟨rfl, hx⟩
    · next hlock =>
      refine ⟨.inl, fun h => h.elim id ?_⟩
      rintro ⟨rfl, hx, -⟩
      exact absurd hx hlock

theorem mem_unlocks_addSite {t : LockSites} {j x : Nat} :
    x ∈ (addSite s {} t j).unlocks.getD i ∅ ↔ x ∈ t.unlocks.getD i ∅ ∨ j = i ∧
      (s.program.isUnlock i = true ∧ ∃ v, s.program.lockPtr i = some v ∧
        s.program.stripCasts v = x) := by
  rw [addSite_start]
  split
  · next hptr =>
    refine ⟨.inl, fun h => h.elim id ?_⟩
    rintro ⟨rfl, -, v, hv, -⟩
    rw [hptr] at hv
    cases hv
  · next v hptr =>
    have hkind := Program.isUnlock_of_lockPtr hptr
    split
    · next hlock =>
      refine ⟨.inl, fun h => h.elim id ?_⟩
      rintro ⟨rfl, hx, -⟩
      simp [hkind, hlock] at hx
    · next hlock =>
      rw [IdMap.mem_getD_addTo]
      refine or_congr_right ⟨?_, ?_⟩
      · rintro ⟨rfl, hx⟩
        exact ⟨rfl, by simpa [hkind] using hlock, v, hptr, hx⟩
      · rintro ⟨rfl, -, w, hw, hx⟩
        rw [hptr] at hw
        cases hw
        exact ⟨rfl, hx⟩

theorem mem_locks_sitesOf {x : Nat} : x ∈ (sitesOf s {} f).locks.getD i ∅ ↔
    i ∈ s.program.funcInsts f ∧ s.program.Takes x i := by
  rw [sitesOf, mem_getD_foldl (g := LockSites.locks) mem_locks_addSite]
  simp

theorem mem_unlocks_sitesOf {x : Nat} : x ∈ (sitesOf s {} f).unlocks.getD i ∅ ↔
    i ∈ s.program.funcInsts f ∧ s.program.isUnlock i = true ∧
      ∃ v, s.program.lockPtr i = some v ∧ s.program.stripCasts v = x := by
  rw [sitesOf, mem_getD_foldl (g := LockSites.unlocks) mem_unlocks_addSite]
  simp

theorem mem_unlocksOf_iff {t : LockSites} {locks : IdSet} {u : Nat} : u ∈ unlocksOf s t locks ↔
    ∃ x ∈ locks, ∃ y ∈ t.unlocks.getD u ∅, s.pointers.mayAlias x y = true := by
  rw [unlocksOf, TreeSet.mem_ofList, List.contains_iff_mem, List.mem_map]
  constructor
  · rintro ⟨⟨k, set⟩, hmem, rfl⟩
    obtain ⟨hin, hshare⟩ := List.mem_filter.1 hmem
    obtain ⟨x, hx, hany⟩ := IdSet.any_iff.1 hshare
    obtain ⟨y, hy, halias⟩ := IdSet.any_iff.1 hany
    have hget := IdMap.getD_of_getElem? (b := ∅) (TreeMap.mem_toList_iff_getElem?_eq_some.1 hin)
    exact ⟨x, hx, y, hget ▸ hy, halias⟩
  · rintro ⟨x, hx, y, hy, halias⟩
    obtain ⟨set, hset, hy⟩ := IdMap.mem_getD_iff.1 hy
    refine ⟨(u, set), List.mem_filter.2 ⟨TreeMap.mem_toList_iff_getElem?_eq_some.2 hset, ?_⟩, rfl⟩
    exact IdSet.any_iff.2 ⟨x, hx, IdSet.any_iff.2 ⟨y, hy, halias⟩⟩

/-- Where protection goes depends on which locks there are only. -/
theorem protectedFrom_congr {t : LockSites} {root : InstId} {a b : IdSet} (h : ∀ x, x ∈ a ↔ x ∈ b) :
    protectedFrom s t root a = protectedFrom s t root b := by
  have hshare (u : IdSet) : mayShare s a u = mayShare s b u := by
    rw [Bool.eq_iff_iff, mayShare, mayShare, IdSet.any_iff, IdSet.any_iff]
    exact exists_congr fun x => and_congr_left fun _ => h x
  have hunlocks : unlocksOf s t a = unlocksOf s t b := by simp only [unlocksOf, hshare]
  rw [protectedFrom, protectedFrom, hunlocks]

/-! ## what is recorded -/

theorem mem_getD_protect {l : Locksets} {is locks : IdSet} :
    q ∈ (l.protect is locks).held.getD i ∅ ↔ q ∈ l.held.getD i ∅ ∨ i ∈ is ∧ q ∈ locks := by
  have hfold (js : List Nat) (m : IdMap IdSet) :
      q ∈ (js.foldl (fun m j => m.addAllTo j locks) m).getD i ∅ ↔
        q ∈ m.getD i ∅ ∨ i ∈ js ∧ q ∈ locks := by
    induction js generalizing m with
    | nil => simp
    | cons j js ih =>
      rw [List.foldl_cons, ih, IdMap.mem_getD_addAllTo, List.mem_cons]
      grind
  rw [protect, TreeSet.foldl_eq_foldl_toList, hfold, TreeSet.mem_toList]

theorem mem_getD_foldl_protect {t : LockSites} {starts : List (InstId × IdSet)} {l : Locksets} :
    q ∈ (starts.foldl (fun l (r : InstId × IdSet) => l.protect (protectedFrom s t r.1 r.2) r.2)
      l).held.getD i ∅ ↔
      q ∈ l.held.getD i ∅ ∨ ∃ r ∈ starts, i ∈ protectedFrom s t r.1 r.2 ∧ q ∈ r.2 := by
  induction starts generalizing l with
  | nil => simp
  | cons r rs ih =>
    rw [List.foldl_cons, ih, mem_getD_protect]
    simp only [List.mem_cons]
    grind

section singleBody

variable {p : Program} {c : Config} {main : FuncId} (h : s.Prepared p c) (hb : p.SingleBody main)
  (hmode : c.localLocksets = false)

include h hb hmode

theorem analyze_singleBody : analyze s = protectFunction s (summarise s {} 0) main := by
  obtain ⟨hup, hdown, hmembers⟩ := h.order_singleBody hb
  rw [analyze, h.config, hmode, hup, hdown]
  simp [hmembers]

theorem summarise_singleBody : (summarise s {} 0).held = ∅ ∧
    (summarise s {} 0).sites.getD main {} = sitesOf s {} main := by
  obtain ⟨-, -, hmembers⟩ := h.order_singleBody hb
  rw [summarise, h.config, hmode, hmembers]
  refine ⟨rfl, ?_⟩
  simp

/-- A lock is recorded as held where its lock calls protect. -/
theorem mem_held_iff (hp : p.WellFormed)
    (hcalls : ∀ i, ∀ f ∈ s.pointers.callees i, (p.func f).isDeclaration = true) :
    q ∈ (analyze s).held.getD i ∅ ↔ ∃ l r, p.Takes q l ∧ p.nextInst l = some r ∧
      i ∈ protectedFrom s (sitesOf s {} main) r {q} := by
  obtain ⟨hheld, hsites⟩ := summarise_singleBody h hb hmode
  have hentry : atEntry s (summarise s {} 0) main = ∅ := by
    have hnone : s.callSites main = [] := by
      have hedges : (s.calls.edgesTo main).filter (!·.fork) = [] := by
        rw [List.filter_eq_nil_iff, h.calls]
        intro e he
        obtain ⟨-, -, -, hdef, ⟨-, hcallee⟩ | ⟨hfork, -⟩⟩ :=
          CallGraph.mem_edges_iff.1 (List.mem_filter.1 he).1
        · rw [hcalls _ _ hcallee] at hdef
          cases hdef
        · simp [hfork]
      rw [Subject.callSites, CallGraph.callSitesTo, hedges]
      rfl
    rw [atEntry, hnone]
    rfl
  -- A site takes one lock.
  have hlocks {locks : IdSet} {l : Nat}
    (hl : (sitesOf s {} main).locks[l]? = some locks) {x : Nat} :
      x ∈ locks ↔ l ∈ p.funcInsts main ∧ p.Takes x l := by
    rw [← h.program, ← mem_locks_sitesOf (f := main), IdMap.getD_of_getElem? hl]
  have hsame {locks : IdSet} {l r : Nat} (hl : (sitesOf s {} main).locks[l]? = some locks)
      (hq : q ∈ locks) : protectedFrom s (sitesOf s {} main) r locks =
        protectedFrom s (sitesOf s {} main) r {q} := by
    refine protectedFrom_congr fun x => ?_
    rw [IdSet.mem_singleton]
    refine ⟨fun hx => ((hlocks hl).1 hx).2.unique ((hlocks hl).1 hq).2, ?_⟩
    rintro rfl
    exact hq
  rw [analyze_singleBody h hb hmode, protectFunction, hsites, hentry]
  simp only [TreeSet.isEmpty_emptyc, if_true, List.nil_append]
  rw [mem_getD_foldl_protect, hheld]
  constructor
  · rintro (hnone | ⟨⟨r, locks⟩, hr, hi, hq⟩)
    · simp at hnone
    · obtain ⟨⟨l, locks'⟩, hl, hnext⟩ := List.mem_filterMap.1 hr
      obtain ⟨r', hr', heq⟩ := Option.map_eq_some_iff.1 hnext
      cases heq
      have hl := TreeMap.mem_toList_iff_getElem?_eq_some.1 hl
      exact ⟨l, r, ((hlocks hl).1 hq).2, h.program ▸ hr', hsame hl hq ▸ hi⟩
  · rintro ⟨l, r, hl, hr, hi⟩
    have hmem : q ∈ (sitesOf s {} main).locks.getD l ∅ := by
      rw [mem_locks_sitesOf, h.program]
      exact ⟨hb.mem_funcInsts hp hl.lt, hl⟩
    obtain ⟨locks, hget, hq⟩ := IdMap.mem_getD_iff.1 hmem
    refine .inr ⟨(r, locks), List.mem_filterMap.2 ⟨(l, locks), ?_, ?_⟩, ?_, hq⟩
    · exact TreeMap.mem_toList_iff_getElem?_eq_some.2 hget
    · rw [h.program, hr]
      rfl
    · rw [hsame hget hq]
      exact hi

end singleBody

end Locksets

end DataRace
