import DataRace.Proofs.Call.Component
import DataRace.Proofs.Lockset.Sites

/-!
# DataRace.Proofs.Lockset.Entry

Which locks a function inherits from its calls.

Protection never leaves the function it starts in: control goes on to
instructions of the same body only.  So what is recorded as held in a function
was spread there when the function itself was visited, from one of its lock
sites or from its entry; and at the entry only locks that are held at every
ordinary call of the function are spread, of which there must be one.

* `mem_funcInsts_of_mem_protectedFrom` — where protection goes;
* `protects_or_shared` — where the locks held at an instruction come from.
-/

namespace DataRace

open Std

theorem IdMap.mem_insert {α : Type} {m : IdMap α} {a : α} {k j : Nat} :
    j ∈ m.insert k a ↔ k = j ∨ j ∈ m := by
  rw [TreeMap.mem_insert, LawfulEqCmp.compare_eq_iff_eq]

/-! ## control stays in a body -/

namespace Program

variable {p : Program} {f : FuncId} {i j : Nat}

theorem mem_funcInsts_of_firstInst (hp : p.Finished) {c : BlockId} (hi : i ∈ p.funcInsts f)
    (hc : c ∈ (p.block (p.blockOf i)).succs) (h : p.firstInst c = some j) : j ∈ p.funcInsts f := by
  obtain ⟨hj, hblock, -⟩ := firstInst_spec hp.wellFormed h
  rw [mem_funcInsts_iff hp.wellFormed] at hi ⊢
  rw [hblock, (hp.succ_spec hc).2.2]
  exact ⟨hj, hi.2⟩

theorem mem_funcInsts_of_nextInst (hp : p.WellFormed) (hi : i ∈ p.funcInsts f)
    (h : p.nextInst i = some j) : j ∈ p.funcInsts f := by
  obtain ⟨hj, hblock, -⟩ := nextInst_spec hp h
  rw [mem_funcInsts_iff hp] at hi ⊢
  rw [hblock]
  exact ⟨hj, hi.2⟩

end Program

namespace Locksets

variable {s : Subject} {f g : FuncId} {i q : Nat} {l : Locksets}

section Body

variable (hp : s.program.Finished)
include hp

theorem mem_funcInsts_of_mem_nextInside {dom : Dominance} {root : BlockId} {j : InstId}
    (hi : i ∈ s.program.funcInsts f) (h : j ∈ nextInside s.program dom root i) :
    j ∈ s.program.funcInsts f := by
  unfold nextInside at h
  split at h
  · obtain ⟨c, hc, hfirst⟩ := List.mem_filterMap.1 h
    exact Program.mem_funcInsts_of_firstInst hp hi (List.mem_filter.1 hc).1 hfirst
  · exact Program.mem_funcInsts_of_nextInst hp.wellFormed hi (Option.mem_toList.1 h)

theorem mem_funcInsts_of_mem_nextOutside {dom : Dominance} {root : BlockId} {j : InstId}
    (hi : i ∈ s.program.funcInsts f) (h : j ∈ nextOutside s.program dom root i) :
    j ∈ s.program.funcInsts f := by
  unfold nextOutside at h
  split at h
  · obtain ⟨c, hc, hfirst⟩ := List.mem_filterMap.1 h
    exact Program.mem_funcInsts_of_firstInst hp hi (List.mem_filter.1 hc).1 hfirst
  · cases h

theorem mem_funcInsts_of_mem_region {unlocks seen : IdSet} {root : InstId}
    (hroot : root ∈ s.program.funcInsts f) (h : i ∈ region s unlocks seen root) :
    i ∈ s.program.funcInsts f := by
  obtain ⟨a, ha, -, hpath⟩ := mem_reachable_iff.1 h
  clear h
  obtain rfl := List.mem_singleton.1 ha
  induction hpath with
  | refl => exact hroot
  | tail _ hstep ih =>
    have hnext := hstep.1
    dsimp only at hnext
    split at hnext
    · cases hnext
    · exact mem_funcInsts_of_mem_nextInside hp ih (List.mem_filter.1 hnext).1

theorem mem_funcInsts_of_mem_frontierOf {unlocks found : IdSet} {root : InstId}
    (hfound : ∀ j ∈ found, j ∈ s.program.funcInsts f) (h : i ∈ frontierOf s unlocks found root) :
    i ∈ s.program.funcInsts f := by
  rw [frontierOf, TreeSet.mem_ofList, List.contains_iff_mem] at h
  obtain ⟨j, hj, hnext⟩ := List.mem_flatMap.1 h
  exact mem_funcInsts_of_mem_nextOutside hp
    (hfound j (TreeSet.mem_toList.1 (List.mem_filter.1 hj).1)) hnext

theorem mem_funcInsts_of_mem_spread {implied : BlockId → Bool} {unlocks seen inside : IdSet}
    {stack : List InstId} (hinside : ∀ j ∈ inside, j ∈ s.program.funcInsts f)
    (hstack : ∀ j ∈ stack, j ∈ s.program.funcInsts f)
    (h : i ∈ spread s implied unlocks seen inside stack) : i ∈ s.program.funcInsts f := by
  fun_induction spread s implied unlocks seen inside stack with
  | case1 seen inside => exact hinside i h
  | case2 seen inside k rest b hk himplied found ih =>
    have hroot := hstack k List.mem_cons_self
    have hfound : ∀ j ∈ found, j ∈ s.program.funcInsts f :=
      fun j hj => mem_funcInsts_of_mem_region hp hroot hj
    refine ih (fun j hj => ?_) (fun j hj => ?_) h
    · exact (TreeSet.mem_union_iff.1 hj).elim (hinside j) (hfound j)
    · rcases List.mem_append.1 hj with hj | hj
      · rw [List.mem_reverse, TreeSet.mem_toList] at hj
        exact mem_funcInsts_of_mem_frontierOf hp hfound hj
      · exact hstack j (List.mem_cons_of_mem k hj)
  | case3 seen inside k rest b hk himplied ih =>
    refine ih hinside (fun j hj => ?_) h
    rcases List.mem_append.1 hj with hj | hj
    · obtain ⟨c, hc, hfirst⟩ := List.mem_filterMap.1 (List.mem_reverse.1 hj)
      exact Program.mem_funcInsts_of_firstInst hp (hstack k List.mem_cons_self) hc hfirst
    · exact hstack j (List.mem_cons_of_mem k hj)
  | case4 seen inside k rest hk ih =>
    exact ih hinside (fun j hj => hstack j (List.mem_cons_of_mem k hj)) h

/-- Protection stays in the body it starts in. -/
theorem mem_funcInsts_of_mem_protectedFrom {t : LockSites} {root : InstId} {locks : IdSet}
    (hroot : root ∈ s.program.funcInsts f) (h : i ∈ protectedFrom s t root locks) :
    i ∈ s.program.funcInsts f := by
  refine mem_funcInsts_of_mem_spread hp (fun j hj => ?_) (fun j hj => ?_)
    (mem_protectedFrom_iff.1 h).1
  · exact absurd hj TreeSet.not_mem_emptyc
  · exact List.mem_singleton.1 hj ▸ hroot

end Body

/-! ## the sites of a body are in it -/

theorem mem_locks_of_addSite {t : LockSites} {j : InstId} (h : j ∈ (addSite s l t i).locks) :
    j ∈ t.locks ∨ j = i := by
  have haddTo (m : IdMap IdSet) (locks : IdSet)
      (hj : j ∈ if locks.isEmpty then m else m.addAllTo i locks) : j ∈ m ∨ j = i := by
    split at hj
    · exact .inl hj
    · exact (IdMap.mem_insert.1 hj).symm.imp_right Eq.symm
  have hfold (us : List LockSummary) (t : LockSites) (hj : j ∈ (us.foldl (fun t u =>
      { locks := if u.acquired.isEmpty then t.locks else t.locks.addAllTo i u.acquired
        unlocks := if u.released.isEmpty then t.unlocks else t.unlocks.addAllTo i u.released }) t :
        LockSites).locks) : j ∈ t.locks ∨ j = i := by
    induction us generalizing t with
    | nil => exact .inl hj
    | cons u us ih => exact (ih _ hj).elim (haddTo _ _) .inr
  rcases hfold _ _ h with h | h
  · split at h
    · exact .inl h
    · split at h
      · exact (IdMap.mem_insert.1 h).symm.imp_right Eq.symm
      · exact .inl h
  · exact .inr h

theorem mem_funcInsts_of_mem_sitesOf (h : i ∈ (sitesOf s l f).locks) :
    i ∈ s.program.funcInsts f := by
  have hfold (is : List InstId) (t : LockSites) (hi : i ∈ (is.foldl (addSite s l) t).locks) :
      i ∈ t.locks ∨ i ∈ is := by
    induction is generalizing t with
    | nil => exact .inl hi
    | cons j js ih =>
      rcases ih _ hi with hi | hi
      · refine (mem_locks_of_addSite hi).imp_right fun heq => ?_
        rw [heq]
        exact List.mem_cons_self
      · exact .inr (List.mem_cons_of_mem j hi)
  exact (hfold _ _ h).resolve_left TreeMap.not_mem_emptyc

/-- Every lock site recorded for a function is in its body. -/
def SitesPlaced (s : Subject) (l : Locksets) : Prop :=
  ∀ f, ∀ i ∈ (l.sites.getD f {}).locks, i ∈ s.program.funcInsts f

theorem SitesPlaced.summarise (h : SitesPlaced s l) (c : ComponentId) :
    SitesPlaced s (summarise s l c) := by
  have hfold (fs : List FuncId) (m : IdMap LockSites)
      (hm : ∀ f, ∀ i ∈ (m.getD f {}).locks, i ∈ s.program.funcInsts f) (f : FuncId) :
      ∀ i ∈ ((fs.foldl (fun m f => m.insert f (sitesOf s l f)) m).getD f {}).locks,
        i ∈ s.program.funcInsts f := by
    rw [IdMap.getD_foldl_insert]
    split
    · exact fun i hi => mem_funcInsts_of_mem_sitesOf hi
    · exact hm f
  unfold Locksets.summarise
  split
  · exact h
  · intro f
    dsimp only
    rw [List.foldl_map]
    exact hfold _ _ h f

theorem sitesPlaced_summarised (s : Subject) :
    SitesPlaced s (s.bottomUp.foldl (summarise s) {}) := by
  have hfold (cs : List ComponentId) (l : Locksets) (h : SitesPlaced s l) :
      SitesPlaced s (cs.foldl (summarise s) l) := by
    induction cs generalizing l with
    | nil => exact h
    | cons c cs ih => exact ih _ (h.summarise c)
  exact hfold _ _ fun f i hi => by simp at hi

theorem held_summarised (s : Subject) : (s.bottomUp.foldl (summarise s) {}).held = ∅ := by
  have hfold (cs : List ComponentId) (l : Locksets) :
      (cs.foldl (summarise s) l).held = l.held := by
    induction cs generalizing l with
    | nil => rfl
    | cons c cs ih =>
      rw [List.foldl_cons, ih]
      unfold summarise
      split <;> rfl
  exact hfold _ _

/-! ## the visit of a function -/

/-- A lock site of a function protects an instruction. -/
def SiteProtects (s : Subject) (t : LockSites) (i : InstId) : Prop :=
  ∃ j locks root, t.locks[j]? = some locks ∧ s.program.nextInst j = some root ∧
    i ∈ protectedFrom s t root locks

/-- All ordinary calls of a function hold a lock, and there is one. -/
def HeldAtCalls (s : Subject) (l : Locksets) (f : FuncId) (q : ValueId) : Prop :=
  s.callSites f ≠ [] ∧ ∀ i ∈ s.callSites f, q ∈ l.held.getD i ∅

/-- Where protection starts in a function, and with which locks. -/
def starts (s : Subject) (l : Locksets) (f : FuncId) : List (InstId × IdSet) :=
  (if (l.atEntry s f).isEmpty then [] else
      (((s.program.func f).entry.bind s.program.firstInst).map (·, l.atEntry s f)).toList) ++
    (l.sites.getD f {}).locks.toList.filterMap fun e => (s.program.nextInst e.1).map (·, e.2)

theorem protectFunction_eq : protectFunction s l f = (starts s l f).foldl (fun l' r =>
    l'.protect (protectedFrom s (l.sites.getD f {}) r.1 r.2) r.2) l := rfl

theorem sites_protectFunction : (protectFunction s l f).sites = l.sites := by
  have hfold (t : LockSites) (rs : List (InstId × IdSet)) (l : Locksets) :
      (rs.foldl (fun l r => l.protect (protectedFrom s t r.1 r.2) r.2) l).sites = l.sites := by
    induction rs generalizing l with
    | nil => rfl
    | cons r rs ih => rw [List.foldl_cons, ih]; rfl
  rw [protectFunction_eq, hfold]

theorem mem_held_protectFunction_of_mem (h : q ∈ l.held.getD i ∅) :
    q ∈ (protectFunction s l f).held.getD i ∅ := by
  rw [protectFunction_eq, mem_getD_foldl_protect]
  exact .inl h

theorem mem_held_protectFunction (h : i ∈ (protectFunction s l f).held) : i ∈ l.held ∨
    ∃ r ∈ starts s l f, i ∈ protectedFrom s (l.sites.getD f {}) r.1 r.2 := by
  have hprotect (l : Locksets) (is locks : IdSet) (h : i ∈ (l.protect is locks).held) :
      i ∈ l.held ∨ i ∈ is := by
    have hfold (js : List Nat) (m : IdMap IdSet) (h : i ∈ js.foldl (·.addAllTo · locks) m) :
        i ∈ m ∨ i ∈ js := by
      induction js generalizing m with
      | nil => exact .inl h
      | cons j js ih =>
        rcases ih _ h with h | h
        · rcases IdMap.mem_insert.1 h with rfl | h
          · exact .inr List.mem_cons_self
          · exact .inl h
        · exact .inr (List.mem_cons_of_mem j h)
    rw [protect, TreeSet.foldl_eq_foldl_toList] at h
    exact (hfold _ _ h).imp_right TreeSet.mem_toList.1
  have hfold (t : LockSites) (rs : List (InstId × IdSet)) (l : Locksets)
      (h : i ∈ (rs.foldl (fun l r => l.protect (protectedFrom s t r.1 r.2) r.2) l).held) :
      i ∈ l.held ∨ ∃ r ∈ rs, i ∈ protectedFrom s t r.1 r.2 := by
    induction rs generalizing l with
    | nil => exact .inl h
    | cons r rs ih =>
      rcases ih _ h with h | ⟨r', hr', h⟩
      · exact (hprotect _ _ _ h).imp_right fun h => ⟨r, List.mem_cons_self, h⟩
      · exact .inr ⟨r', List.mem_cons_of_mem r hr', h⟩
  rw [protectFunction_eq] at h
  exact hfold _ _ _ h

/-- What is held at the entry of a function is what is held at all its calls. -/
theorem mem_atEntry_iff : q ∈ atEntry s l f ↔ HeldAtCalls s l f q := by
  have hfold (rest : List (Option IdSet)) (first : Option IdSet) :
      q ∈ (rest.foldl (fun u v => do return (← u) ∩ (← v)) first).getD ∅ ↔
        ∀ v ∈ first :: rest, q ∈ v.getD ∅ := by
    induction rest generalizing first with
    | nil => simp
    | cons v rest ih =>
      have hboth : q ∈ (do return (← first) ∩ (← v) : Option IdSet).getD ∅ ↔
          q ∈ first.getD ∅ ∧ q ∈ v.getD ∅ := by
        cases first with
        | none => simp
        | some a =>
          cases v with
          | none => simp
          | some b => exact TreeSet.mem_inter_iff
      rw [List.foldl_cons, ih, List.forall_mem_cons, hboth, List.forall_mem_cons,
        List.forall_mem_cons, and_assoc]
  unfold atEntry HeldAtCalls
  cases hcalls : s.callSites f with
  | nil => simp
  | cons i is =>
    rw [List.map_cons]
    refine (hfold _ _).trans ?_
    rw [← List.map_cons, List.forall_mem_map, and_iff_right (List.cons_ne_nil i is)]
    simp only [TreeMap.getD_eq_getD_getElem?]

/-! ## all visits -/

theorem mem_held_foldl_of_mem (fs : List FuncId) (h : q ∈ l.held.getD i ∅) :
    q ∈ (fs.foldl (protectFunction s) l).held.getD i ∅ := by
  induction fs generalizing l with
  | nil => exact h
  | cons g fs ih => exact ih (mem_held_protectFunction_of_mem h)

theorem sites_foldl (fs : List FuncId) : (fs.foldl (protectFunction s) l).sites = l.sites := by
  induction fs generalizing l with
  | nil => rfl
  | cons g fs ih => rw [List.foldl_cons, ih, sites_protectFunction]

theorem analyze_eq_foldl (hmode : s.config.localLocksets = false) :
    analyze s = (s.topDown.flatMap fun c => (s.components.get c).members).foldl
      (protectFunction s) (s.bottomUp.foldl (summarise s) {}) := by
  rw [analyze, hmode, List.foldl_flatMap]
  rfl

/-- A start of a function is in its body, and its locks come from a site or from all calls. -/
theorem starts_cases (hp : s.program.Finished) (hplaced : SitesPlaced s l) {r : InstId × IdSet}
    (hr : r ∈ starts s l f) (hi : i ∈ protectedFrom s (l.sites.getD f {}) r.1 r.2) :
    i ∈ s.program.funcInsts f ∧
      (SiteProtects s (l.sites.getD f {}) i ∨ ∃ q, HeldAtCalls s l f q) := by
  rcases List.mem_append.1 hr with hentry | hsite
  · split at hentry
    · cases hentry
    · next hne =>
      obtain ⟨root, hroot, rfl⟩ := Option.map_eq_some_iff.1 (Option.mem_toList.1 hentry)
      obtain ⟨b, hb, hfirst⟩ := Option.bind_eq_some_iff.1 hroot
      obtain ⟨hlt, hblock, -⟩ := Program.firstInst_spec hp.wellFormed hfirst
      have hbody : root ∈ s.program.funcInsts f := by
        rw [Program.mem_funcInsts_iff hp.wellFormed, hblock]
        exact ⟨hlt, (hp.wellFormed.mem_blocks_iff.1 (List.mem_of_mem_head? hb)).2⟩
      refine ⟨mem_funcInsts_of_mem_protectedFrom hp hbody hi, .inr ?_⟩
      obtain ⟨q, hq⟩ := TreeSet.isEmpty_eq_false_iff_exists_mem.1 (Bool.eq_false_iff.2 hne)
      exact ⟨q, mem_atEntry_iff.1 hq⟩
  · obtain ⟨⟨j, locks⟩, hj, hnext⟩ := List.mem_filterMap.1 hsite
    obtain ⟨root, hroot, rfl⟩ := Option.map_eq_some_iff.1 hnext
    have hget := TreeMap.mem_toList_iff_getElem?_eq_some.1 hj
    have hsite : j ∈ s.program.funcInsts f :=
      hplaced f j (TreeMap.mem_iff_isSome_getElem?.2 (by rw [hget]; rfl))
    have hbody := Program.mem_funcInsts_of_nextInst hp.wellFormed hsite hroot
    exact ⟨mem_funcInsts_of_mem_protectedFrom hp hbody hi, .inl ⟨j, locks, root, hget, hroot, hi⟩⟩

/-- **What is held in a function** was taken at one of its lock sites, or some lock is held at all
ordinary calls of the function. -/
theorem protects_or_shared (hp : s.program.Finished) (hmode : s.config.localLocksets = false)
    (hi : i ∈ s.program.funcInsts f) (h : i ∈ (analyze s).held) :
    SiteProtects s ((analyze s).sites.getD f {}) i ∨ ∃ q, HeldAtCalls s (analyze s) f q := by
  -- each visit is judged by what is held in the end
  have hfold (fs : List FuncId) (l : Locksets) (hplaced : SitesPlaced s l)
      (hl : ∀ f, ∀ i ∈ s.program.funcInsts f, i ∈ l.held → SiteProtects s (l.sites.getD f {}) i ∨
        ∃ q, HeldAtCalls s (fs.foldl (protectFunction s) l) f q) :
      ∀ f, ∀ i ∈ s.program.funcInsts f, i ∈ (fs.foldl (protectFunction s) l).held →
        SiteProtects s (l.sites.getD f {}) i ∨
          ∃ q, HeldAtCalls s (fs.foldl (protectFunction s) l) f q := by
    induction fs generalizing l with
    | nil => exact hl
    | cons g fs ih =>
      rw [← sites_protectFunction (s := s) (f := g)]
      refine ih _ (fun f => ?_) fun f i hi hheld => ?_
      · rw [sites_protectFunction]
        exact hplaced f
      · rw [sites_protectFunction]
        rcases mem_held_protectFunction hheld with hheld | ⟨r, hr, hprot⟩
        · exact hl f i hi hheld
        · obtain ⟨hbody, hcases⟩ := starts_cases hp hplaced hr hprot
          rw [Program.mem_funcInsts_iff hp.wellFormed] at hi hbody
          obtain rfl : f = g := hi.2.symm.trans hbody.2
          refine hcases.imp_right fun ⟨q, hcalls, hq⟩ => ⟨q, hcalls, fun i hi => ?_⟩
          exact mem_held_foldl_of_mem (f :: fs) (hq i hi)
  rw [analyze_eq_foldl hmode] at h ⊢
  rw [sites_foldl]
  refine hfold _ _ (sitesPlaced_summarised s) (fun f i _ hheld => ?_) f i hi h
  rw [held_summarised] at hheld
  exact absurd hheld TreeMap.not_mem_emptyc

end Locksets

end DataRace
