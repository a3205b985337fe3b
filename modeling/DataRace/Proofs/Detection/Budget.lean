import DataRace.Proofs.Detection.Phases
import DataRace.Proofs.Guard.Exclusion

/-!
# DataRace.Proofs.Detection.Budget

A smaller budget for risky pairs hides no race.

Two detections of one program under two budgets are compared phase by phase.
The partitions stay those of the smaller budget under a larger one
(`Partition.Within`): within the smaller budget they have no pair more, and over
it the accesses are all reported.  The filters by locks, barriers, heap instances
and joins do not look at the pairs; the filter by guards does, but what it finds
apart it finds apart under a larger budget.

* `Screening.Within` — the two detections after a phase, with one lemma for each
  filter;
* `Detection.hasRace_of_smaller_budget` — what is reported under the larger budget is
  reported under the smaller one.
-/

namespace DataRace

open Std

variable {s : Subject} {budget : Nat}

/-! ## what the budget decides nothing about -/

theorem Locksets.spread_withBudget (implied : BlockId → Bool) (unlocks seen inside : IdSet)
    (stack : List InstId) : spread (s.withBudget budget) implied unlocks seen inside stack =
      spread s implied unlocks seen inside stack := by
  fun_induction spread s implied unlocks seen inside stack with
  | case1 seen inside => rw [spread]
  | case2 seen inside i rest b h himplied found ih =>
    rw [spread]
    exact (dif_pos h).trans ((if_pos himplied).trans ih)
  | case3 seen inside i rest b h himplied ih =>
    rw [spread]
    exact (dif_pos h).trans ((if_neg himplied).trans ih)
  | case4 seen inside i rest h ih =>
    rw [spread]
    exact (dif_neg h).trans ih

theorem Locksets.analyze_withBudget : analyze (s.withBudget budget) = analyze s := by
  have hfrom (t : LockSites) (root : InstId) (locks : IdSet) :
      protectedFrom (s.withBudget budget) t root locks = protectedFrom s t root locks := by
    unfold protectedFrom
    simp only [spread_withBudget]
    rfl
  have hfunction : protectFunction (s.withBudget budget) = protectFunction s := by
    funext l f
    unfold protectFunction
    simp only [hfrom]
    rfl
  unfold analyze
  rw [hfunction]
  rfl

theorem GuardTable.guardsIn_withBudget {φ ε : Type} [DecidableEq φ] (read : Guard.Reader φ ε) :
    guardsIn (s.withBudget budget) read = guardsIn s read := by
  have hunfolded (depth : Nat) :
      unfolded (s.withBudget budget) read depth = unfolded s read depth := by
    induction depth with
    | zero => rfl
    | succ depth ih =>
      funext b
      rw [unfolded, unfolded, ih]
      rfl
  exact funext fun b => congrFun (hunfolded _) b

theorem Exclusion.apartBy_withBudget :
    apartBy (s.withBudget budget) = apartBy s := by
  have hguards : guardsBy (s.withBudget budget) = guardsBy s := by
    funext i
    exact congrFun (GuardTable.guardsIn_withBudget _) _
  have hfork : forkExcluded (s.withBudget budget) = forkExcluded s := by
    funext ops m i j fork
    simp only [forkExcluded, hguards]
    rfl
  funext ops par m i j
  simp only [apartBy, hguards, hfork]
  rfl

theorem Subject.Layered.withBudget {rank : FuncId → Nat} (h : s.Layered rank) :
    (s.withBudget budget).Layered rank :=
  ⟨h.mem_of_mem_callSites, h.lt_of_mem_callSites, h.le_size, h.lt_size⟩

/-! ## what a filter leaves -/

namespace Screening

theorem filter_parts (x : Screening) (apart : InstId → InstId → Bool) : (x.filter apart).parts =
    x.parts.map (·.without fun _ a b => apart (x.ops.get a).inst (x.ops.get b).inst) :=
  x.parts.filterPairs_pure fun _ a b => apart (x.ops.get a).inst (x.ops.get b).inst

/-- The filter by heap instances looks at partitions of one object. -/
theorem filterHeap_parts (x : Screening) (s : Subject) : (x.filterHeap s).parts =
    x.parts.map (·.without fun p a b =>
      ((x.parts.get? p).bind fun part => single? part.objs.toList).any fun o =>
        s.differentInstances x.par x.escape o (x.ops.get a).inst (x.ops.get b).inst) :=
  x.parts.filterPairs_pure fun p a b =>
    ((x.parts.get? p).bind fun part => single? part.objs.toList).any fun o =>
      s.differentInstances x.par x.escape o (x.ops.get a).inst (x.ops.get b).inst

theorem filterGuards_parts {rank : FuncId → Nat} (hl : s.Layered rank) (x : Screening) :
    (x.filterGuards s).parts = x.parts.map (·.without fun _ a b =>
      Exclusion.apartBy s x.ops x.par x.parts (x.ops.get a).inst (x.ops.get b).inst) :=
  Exclusion.filterPairs_apart_run hl _ _

/-- Without alias refinement the last phase only counts. -/
theorem filterAliases_of_none {x : Screening} (s : Subject) (hx : x.aliases = none) :
    x.filterAliases s = .ok (x.record .csRefinement) := by
  simp only [filterAliases, refineParts, hx, bind, Except.bind]
  rfl

end Screening

/-! ## one phase under two budgets -/

/-- The screening `x'` is `x` under a larger budget, both without alias refinement. -/
structure Screening.Within (x x' : Screening) : Prop where
  ops_eq : x'.ops = x.ops
  par_eq : x'.par = x.par
  escape_eq : x'.escape = x.escape
  parts : x.parts.Within x'.parts
  aliases_eq : x.aliases = none
  aliases_eq' : x'.aliases = none

namespace Screening.Within

variable {x x' : Screening}

theorem record (h : x.Within x') (phase : Phase) : (x.record phase).Within (x'.record phase) :=
  ⟨h.ops_eq, h.par_eq, h.escape_eq, h.parts, h.aliases_eq, h.aliases_eq'⟩

theorem filter (h : x.Within x') (apart : InstId → InstId → Bool) :
    (x.filter apart).Within (x'.filter apart) := by
  refine ⟨h.ops_eq, h.par_eq, h.escape_eq, ?_, h.aliases_eq, h.aliases_eq'⟩
  rw [filter_parts, filter_parts, h.ops_eq]
  exact h.parts.map_without fun _ _ _ hap => hap

theorem filterLocks (h : x.Within x') (locks : Locksets) :
    (x.filterLocks s locks).Within (x'.filterLocks (s.withBudget budget) locks) := by
  have hlog : Screening.Within { x with log := Locksets.note s x.log }
      { x' with log := Locksets.note (s.withBudget budget) x'.log } :=
    ⟨h.ops_eq, h.par_eq, h.escape_eq, h.parts, h.aliases_eq, h.aliases_eq'⟩
  exact (hlog.filter (locks.haveCommon s)).record .lockset

theorem filterBarriers (h : x.Within x') :
    (x.filterBarriers s).Within (x'.filterBarriers (s.withBudget budget)) :=
  (h.filter ((Barriers.analyze s).separates s.program)).record .barrier

/-- The objects of a partition are the same under both budgets. -/
theorem objOf_eq (h : x.Within x') (p : PartId) :
    ((x'.parts.get? p).bind fun part => single? part.objs.toList) =
      (x.parts.get? p).bind fun part => single? part.objs.toList := by
  have hfind : Option.Rel Partition.Within (x.parts.get? p) (x'.parts.get? p) :=
    h.parts.find? fun q q' hq => by rw [hq.id_eq]
  unfold Partitioning.get? at hfind ⊢
  generalize x.parts.parts.find? _ = found at hfind ⊢
  generalize x'.parts.parts.find? _ = found' at hfind ⊢
  cases hfind with
  | none => rfl
  | some hq => simp only [Option.bind_some, hq.objs_eq]

theorem filterHeap (h : x.Within x') (s : Subject) (budget : Nat) :
    (x.filterHeap s).Within (x'.filterHeap (s.withBudget budget)) := by
  refine ⟨h.ops_eq, h.par_eq, h.escape_eq, ?_, h.aliases_eq, h.aliases_eq'⟩
  rw [filterHeap_parts, filterHeap_parts]
  simp only [h.objOf_eq, h.ops_eq, h.par_eq, h.escape_eq]
  exact h.parts.map_without fun _ _ _ hap => hap

theorem filterGuards (h : x.Within x') {rank : FuncId → Nat} (hl : s.Layered rank) :
    (x.filterGuards s).Within (x'.filterGuards (s.withBudget budget)) := by
  refine ⟨h.ops_eq, h.par_eq, h.escape_eq, ?_, h.aliases_eq, h.aliases_eq'⟩
  rw [filterGuards_parts hl, filterGuards_parts hl.withBudget, h.ops_eq, h.par_eq,
    Exclusion.apartBy_withBudget]
  exact h.parts.map_without fun _ a b hap => Exclusion.apartBy_of_within h.parts hap

theorem filterFurther (h : x.Within x') {rank : FuncId → Nat} (hl : s.Layered rank) :
    (x.filterFurther s).Within (x'.filterFurther (s.withBudget budget)) := by
  have hpar : Screening.Within
      { x with par := x.par.refine s, log := (x.par.refine s).noteRefinement s x.log }
      { x' with
        par := x'.par.refine (s.withBudget budget)
        log := (x'.par.refine (s.withBudget budget)).noteRefinement
          (s.withBudget budget) x'.log } :=
    ⟨h.ops_eq, by rw [h.par_eq]; rfl, h.escape_eq, h.parts, h.aliases_eq, h.aliases_eq'⟩
  have hjoin := (hpar.filterHeap s budget).filter ((x.par.refine s).joinApart s.program)
  have hjoin' : (x'.par.refine (s.withBudget budget)).joinApart (s.withBudget budget).program =
      (x.par.refine s).joinApart s.program := by
    rw [h.par_eq]
    rfl
  unfold Screening.filterFurther
  simp only [hjoin']
  exact (hjoin.filterGuards hl).record .furtherRefinement

theorem filterAliases (h : x.Within x') : ∃ y y', x.filterAliases s = .ok y ∧
    x'.filterAliases (s.withBudget budget) = .ok y' ∧ y.Within y' :=
  ⟨_, _, filterAliases_of_none s h.aliases_eq, filterAliases_of_none _ h.aliases_eq', h.record _⟩

end Screening.Within

/-! ## the phases under two budgets -/

theorem Escape.of_withBudget (ops : Operations) (m : Partitioning) :
    Escape.of (s.withBudget budget) ops (m.map (·.withBudget budget)) = Escape.of s ops m := by
  have hpart (o : ObjId) : (m.map (·.withBudget budget)).partOf? o = m.partOf? o := by
    simp only [Partitioning.partOf?, Partitioning.map, List.find?_map, Option.map_map]
    rfl
  simp only [Escape.of, funext hpart]
  rfl

/-- What a detection without alias refinement starts with. -/
theorem Screening.start_of_disabled (hmode : s.config.contextMode = .disabled) {par : Parallelism}
    (hpar : Parallelism.analyze s (.collect s) = .ok par) :
    let ops := Operations.collect s
    let escape := Escape.of s ops (.of s ops)
    ∃ x, start s = .ok x ∧ x.ops = ops ∧ x.par = par ∧ x.escape = escape ∧ x.aliases = none ∧
      x.parts = Id.run (((Partitioning.of s ops).pruneHidden escape).seedVisible s ops par escape
        fun _ _ _ => pure false) := by
  have hnone (log : Log) : AliasRefinement.start s.config log = none := if_pos hmode
  simp only [start, hpar, hnone, bind, Except.bind]
  exact ⟨_, rfl, rfl, rfl, rfl, rfl, rfl⟩

theorem Screening.exists_within_start (hmode : s.config.contextMode = .disabled)
    (hle : s.config.riskyPairBudget ≤ budget) {x' : Screening}
    (h : start (s.withBudget budget) = .ok x') : ∃ x, start s = .ok x ∧ x.Within x' := by
  obtain ⟨par, hpar, -⟩ := exists_of_bind_eq_ok h
  obtain ⟨y, hy, hops, hpar', hescape, haliases, hparts⟩ := start_of_disabled hmode hpar
  obtain ⟨y', hy', hops', hpar'', hescape', haliases', hparts'⟩ :=
    start_of_disabled (s := s.withBudget budget) hmode hpar
  rw [hy', Except.ok.injEq] at h
  subst h
  have hcollect : Operations.collect (s.withBudget budget) = Operations.collect s := rfl
  rw [hcollect] at hops' hescape' hparts'
  rw [Partitioning.of_withBudget, Escape.of_withBudget] at hescape' hparts'
  refine ⟨y, hy, hops'.trans hops.symm, hpar''.trans hpar'.symm, hescape'.trans hescape.symm, ?_,
    haliases, haliases'⟩
  rw [hparts, hparts', Partitioning.pruneHidden_withBudget]
  refine Partitioning.within_seedVisible (fun _ _ _ => false) fun p hp => ?_
  -- hiding a partition leaves its pairs as they are, and so empty
  obtain ⟨q, hq, rfl⟩ := List.mem_map.1 hp
  have hrisky := (Partitioning.fresh_of_mem_parts hq).risky
  have hkept :
      (if y.escape.escapes q.id then q else q.keepAccesses fun _ => false).risky = q.risky := by
    split <;> rfl
  rw [← hescape, hkept, hrisky]
  exact ⟨rfl, hle⟩

theorem Phases.exists_within_run (hmode : s.config.contextMode = .disabled)
    (hle : s.config.riskyPairBudget ≤ budget) {rank : FuncId → Nat} (hl : s.Layered rank)
    {t' : Phases} (h : run (s.withBudget budget) = .ok t') :
    ∃ t, run s = .ok t ∧ t.csRefinement.Within t'.csRefinement := by
  obtain ⟨x', hx', h⟩ := exists_of_bind_eq_ok h
  obtain ⟨y', hy', h⟩ := exists_of_bind_eq_ok h
  cases h
  obtain ⟨x, hx, hwithin⟩ := Screening.exists_within_start hmode hle hx'
  rw [Locksets.analyze_withBudget] at hy'
  obtain ⟨y, z', hy, hz', hyz⟩ :=
    ((hwithin.filterLocks (Locksets.analyze s)).filterBarriers.filterFurther hl).filterAliases
  rw [hz', Except.ok.injEq] at hy'
  subst hy'
  obtain ⟨t, ht, rfl⟩ : ∃ t, run s = .ok t ∧ t.csRefinement = y := by
    simp only [run, hx, hy, bind, Except.bind]
    exact ⟨_, rfl, rfl⟩
  exact ⟨t, ht, hyz⟩

/-! ## what a report covers -/

/-- Two instructions are reported for a partition: over budget any two of its accesses, else those
of a pair. -/
def Partition.Reports (ops : Operations) (p : Partition) (i j : InstId) : Prop :=
  ∃ a b, a ∈ p.live ∧ b ∈ p.live ∧ (p.risky.isOverBudget = false → (a, b) ∈ p.risky.pairs) ∧
    ((ops.get a).inst = i ∧ (ops.get b).inst = j ∨ (ops.get a).inst = j ∧ (ops.get b).inst = i)

/-- What is reported under the larger budget is reported under the smaller one. -/
theorem Partition.Within.reports {p p' : Partition} (h : p.Within p') {ops : Operations}
    {i j : InstId} (hr : p'.Reports ops i j) : p.Reports ops i j := by
  obtain ⟨a, b, ha, hb, hab, hinst⟩ := hr
  have hlive : p'.live = p.live := by rw [Partition.live, Partition.live, h.accesses_eq]
  rw [hlive] at ha hb
  refine ⟨a, b, ha, hb, fun hwithin => h.subset hwithin _ (hab ?_), hinst⟩
  exact Bool.eq_false_iff.2 fun hover => by
    rw [h.isOver hover] at hwithin
    cases hwithin

theorem RaceReport.hasRace_collect (s : Subject) (ops : Operations) (m : Partitioning)
    (i j : InstId) : (collect s ops m).hasRace i j =
      m.parts.any fun p => !p.isPruned && (RaceWarning.ofPartition s ops p).covers i j := by
  rw [Bool.eq_iff_iff]
  simp [hasRace, collect, List.mem_mergeSort, and_assoc]

theorem RaceWarning.covers_ofPartition_of_over {ops : Operations} {p : Partition} {i j : InstId}
    (h : p.risky.isOverBudget = true) : (ofPartition s ops p).covers i j = true ↔
      (∃ a ∈ p.live, (ops.get a).inst = i) ∧ ∃ b ∈ p.live, (ops.get b).inst = j := by
  have hover : (ofPartition s ops p).overBudget = true := h
  rw [covers, if_pos hover]
  simp [ofPartition]

theorem RaceWarning.covers_ofPartition_of_within {ops : Operations} {p : Partition} {i j : InstId}
    (h : p.risky.isOverBudget = false) : (ofPartition s ops p).covers i j = true ↔
      ∃ a b, (a, b) ∈ p.risky.pairs ∧ ((ops.get a).inst = i ∧ (ops.get b).inst = j ∨
        (ops.get a).inst = j ∧ (ops.get b).inst = i) := by
  have hwithin : (ofPartition s ops p).overBudget = false := h
  have hsame (k l i j : Nat) : min k l = min i j ∧ max k l = max i j ↔
      k = i ∧ l = j ∨ k = j ∧ l = i := by omega
  rw [covers, if_neg (by simp [hwithin])]
  simp [ofPartition, hsame]

theorem RiskyPairs.mem_ids_iff {r : RiskyPairs} {x : AccessId} :
    x ∈ r.ids ↔ ∃ q ∈ r.pairs, q.1 = x ∨ q.2 = x := by
  have hfold (qs : List (AccessId × AccessId)) (ids : IdSet) :
      x ∈ qs.foldl (fun ids (a, b) => (ids.insert a).insert b) ids ↔
        x ∈ ids ∨ ∃ q ∈ qs, q.1 = x ∨ q.2 = x := by
    induction qs generalizing ids with
    | nil => simp
    | cons q qs ih =>
      rw [List.foldl_cons, ih, IdSet.mem_insert, IdSet.mem_insert, List.exists_mem_cons_iff]
      grind
  rw [ids, TreeSet.foldl_eq_foldl_toList, hfold]
  simp

theorem Partition.isPruned_of_mem_live {p : Partition} {a : AccessId} (h : a ∈ p.live) :
    p.isPruned = false := by
  obtain ⟨_, ha, rfl⟩ := List.mem_filterMap.1 h
  refine Bool.eq_false_iff.2 fun hpruned => ?_
  simpa using List.all_eq_true.1 hpruned _ ha

namespace Phases

variable {t : Phases} {i j : InstId}

/-- Whether two instructions are reported to race, in whatever order the races are listed. -/
def hasRace (t : Phases) (s : Subject) (i j : InstId) : Bool :=
  t.outcome.parts.any fun p =>
    !p.isPruned && (RaceWarning.ofPartition s t.csRefinement.ops p).covers i j

theorem hasRace_settle (t : Phases) (s : Subject) (i j : InstId) :
    (t.settle s).report.hasRace i j = t.hasRace s i j := by
  have hreport : (t.settle s).report.hasRace i j =
      (RaceReport.collect s t.csRefinement.ops t.outcome).hasRace i j := by
    unfold settle
    cases s.config.detail <;> rfl
  rw [hreport, RaceReport.hasRace_collect]
  rfl

theorem hasRace_iff : t.hasRace s i j = true ↔ ∃ p ∈ t.outcome.parts, p.isPruned = false ∧
    (RaceWarning.ofPartition s t.csRefinement.ops p).covers i j = true := by
  simp [hasRace]

/-- What is reported is reported for some partition, if pairs are of accesses that are left. -/
theorem reports_of_hasRace
    (hlive : ∀ p ∈ t.csRefinement.parts.parts, ∀ q ∈ p.risky.pairs, q.1 ∈ p.live ∧ q.2 ∈ p.live)
    (h : t.hasRace s i j = true) :
    ∃ p ∈ t.csRefinement.parts.parts, p.Reports t.csRefinement.ops i j := by
  obtain ⟨_, hq, -, hcovers⟩ := hasRace_iff.1 h
  obtain ⟨p, hp, rfl⟩ := List.mem_map.1 hq
  refine ⟨p, hp, ?_⟩
  cases hover : p.risky.isOverBudget with
  | true =>
    rw [hover, if_pos rfl, RaceWarning.covers_ofPartition_of_over hover] at hcovers
    obtain ⟨⟨a, ha, hi⟩, b, hb, hj⟩ := hcovers
    exact ⟨a, b, ha, hb, by simp [hover], .inl ⟨hi, hj⟩⟩
  | false =>
    have hkept : (p.keepAccesses p.risky.ids.contains).risky.isOverBudget = false := hover
    rw [hover, if_neg Bool.false_ne_true, RaceWarning.covers_ofPartition_of_within hkept] at hcovers
    obtain ⟨a, b, hab, hinst⟩ := hcovers
    obtain ⟨ha, hb⟩ := hlive p hp (a, b) hab
    exact ⟨a, b, ha, hb, fun _ => hab, hinst⟩

theorem hasRace_of_reports {p : Partition} (hp : p ∈ t.csRefinement.parts.parts)
    (h : p.Reports t.csRefinement.ops i j) : t.hasRace s i j = true := by
  obtain ⟨a, b, ha, hb, hab, hinst⟩ := h
  refine hasRace_iff.2 ⟨_, List.mem_map_of_mem hp, ?_⟩
  cases hover : p.risky.isOverBudget with
  | true =>
    rw [if_pos rfl, RaceWarning.covers_ofPartition_of_over hover]
    refine ⟨Partition.isPruned_of_mem_live ha, ?_⟩
    rcases hinst with ⟨hi, hj⟩ | ⟨hj, hi⟩
    · exact ⟨⟨a, ha, hi⟩, b, hb, hj⟩
    · exact ⟨⟨b, hb, hi⟩, a, ha, hj⟩
  | false =>
    have hkept : (p.keepAccesses p.risky.ids.contains).risky.isOverBudget = false := hover
    have hleft : a ∈ (p.keepAccesses p.risky.ids.contains).live := by
      rw [Partitioning.live_keepAccesses, List.mem_filter, TreeSet.contains_iff_mem]
      exact ⟨ha, RiskyPairs.mem_ids_iff.2 ⟨_, hab hover, .inl rfl⟩⟩
    rw [if_neg Bool.false_ne_true, RaceWarning.covers_ofPartition_of_within hkept]
    exact ⟨Partition.isPruned_of_mem_live hleft, a, b, hab hover, hinst⟩

end Phases

/-! ## two budgets -/

namespace Subject

variable {p : Program} {c : Config} {small large : Nat} {s' : Subject}

/-- Preparing a program does not look at the budget. -/
theorem eq_withBudget (hs : prepare p { c with riskyPairBudget := small } = .ok s)
    (hs' : prepare p { c with riskyPairBudget := large } = .ok s') : s' = s.withBudget large := by
  have h := prepared hs
  have h' := prepared hs'
  have hpointers : s'.pointers = s.pointers := Except.ok.inj (h'.pointers.symm.trans h.pointers)
  have hcalls : s'.calls = s.calls := by rw [h'.calls, h.calls, hpointers]
  have hcomponents : s'.components = s.components := by rw [h'.components, h.components, hcalls]
  have hrecursive : s'.recursive = s.recursive := by rw [h'.recursive, h.recursive, hcomponents]
  have hconfig : s'.config = { s.config with riskyPairBudget := large } := by
    rw [h'.config, h.config]
  cases s'
  simp only [withBudget, Subject.mk.injEq]
  exact ⟨h'.program.trans h.program.symm, hconfig, hpointers, hcalls, hcomponents, hrecursive,
    h'.flows.trans h.flows.symm⟩

end Subject

namespace Detection

/-- **Running out of budget hides no race.**  Without recursion and without alias refinement, a
smaller budget reports every pair of instructions that a larger one reports, if the calls stand in
blocks of their own functions. -/
theorem hasRace_of_smaller_budget (p : Program) (c : Config) (small large : Nat) (s s' : Subject)
    (d' : Detection) (hle : small ≤ large) (hmode : c.contextMode = .disabled)
    (hs : Subject.prepare p { c with riskyPairBudget := small } = .ok s)
    (hs' : Subject.prepare p { c with riskyPairBudget := large } = .ok s')
    (hrec : ∀ k ∈ s.components.list, k.recursive = false)
    (hplaced : ∀ i, p.isCall i = true → (p.block (p.blockOf i)).func = p.funcOf i)
    (hd' : Detection.run s' = .ok d') :
    ∃ d, Detection.run s = .ok d ∧
      ∀ i j, d'.report.hasRace i j = true → d.report.hasRace i j = true := by
  have hprepared := Subject.prepared hs
  obtain ⟨rank, hlayered⟩ := hprepared.layered hplaced hrec
  have hmode' : s.config.contextMode = .disabled := by rw [hprepared.config]; exact hmode
  have hle' : s.config.riskyPairBudget ≤ large := by rw [hprepared.config]; exact hle
  rw [Subject.eq_withBudget hs hs'] at hd'
  obtain ⟨t', ht', rfl⟩ := run_eq_ok_iff.1 hd'
  obtain ⟨t, ht, hwithin⟩ := Phases.exists_within_run hmode' hle' hlayered ht'
  refine ⟨t.settle s, run_eq_ok_iff.2 ⟨t, ht, rfl⟩, fun i j hrace => ?_⟩
  rw [Phases.hasRace_settle] at hrace ⊢
  have hlive (p' : Partition) (hp' : p' ∈ t'.csRefinement.parts.parts) :
      ∀ q ∈ p'.risky.pairs, q.1 ∈ p'.live ∧ q.2 ∈ p'.live := by
    obtain ⟨p, -, hp⟩ := hwithin.parts.exists_of_mem hp'
    exact hp.live
  obtain ⟨p', hp', hreports⟩ := Phases.reports_of_hasRace hlive hrace
  obtain ⟨p, hp, hpp'⟩ := hwithin.parts.exists_of_mem hp'
  rw [hwithin.ops_eq] at hreports
  exact Phases.hasRace_of_reports hp (hpp'.reports hreports)

/-- Whether the phases of a script have a property, run without alias refinement. -/
def holdsOf (script : List Command) (budget : Nat) (view : Subject → Phases → Bool) : Bool :=
  (Subject.prepare (Builder.ofScript script)
    { contextMode := .disabled, riskyPairBudget := budget }).toOption.any fun s =>
      (Phases.run s).toOption.any (view s)

theorem exists_of_holdsOf {script : List Command} {budget : Nat} {view : Subject → Phases → Bool}
    (h : holdsOf script budget view = true) : ∃ s t,
      Subject.prepare (Builder.ofScript script)
        { contextMode := .disabled, riskyPairBudget := budget } = .ok s ∧
      Detection.run s = .ok (t.settle s) ∧ view s t = true := by
  obtain ⟨s, hs, h⟩ := exists_of_any_toOption h
  obtain ⟨t, ht, h⟩ := exists_of_any_toOption h
  exact ⟨s, t, hs, run_eq_ok_iff.2 ⟨t, ht, rfl⟩, h⟩

/-- A parallel loop whose body reads and writes a global and, depending on what it read, writes
another one. -/
def guardedStore : List Command :=
  [.global "q" 0, .global "x" 0, .declare "main" 0, .declare "body" 1, .declare "parallel_for" 2,
    .const 0,
    .body 1, .block 1, .block 1, .append 1 0 (.load 0), .append 1 0 (.store 0 8),
    .append 1 0 (.compare .eq 9 8), .append 1 0 (.branch 10 1 2), .append 1 1 (.store 1 8),
    .append 1 1 (.jump 2), .append 1 2 (.ret none),
    .body 0, .append 0 3 (.call (.direct 2) [3, 8]), .append 0 3 (.ret none)]

/-- The races that a large budget reports are reported under a budget of two pairs, which also
reports the two reads. -/
theorem hasRace_of_smaller_budget_guardedStore : ∃ s s' d d',
    Subject.prepare (Builder.ofScript guardedStore)
      { contextMode := .disabled, riskyPairBudget := 2 } = .ok s ∧
    Subject.prepare (Builder.ofScript guardedStore)
      { contextMode := .disabled, riskyPairBudget := 3000 } = .ok s' ∧
    Detection.run s = .ok d ∧ Detection.run s' = .ok d' ∧
    d'.report.hasRace 0 0 = false ∧ d.report.hasRace 0 0 = true ∧
    d'.report.hasRace 0 1 = true ∧ d.report.hasRace 0 1 = true ∧
    d'.report.hasRace 4 4 = true ∧ d.report.hasRace 4 4 = true := by
  have hsmall : holdsOf guardedStore 2 (fun s t =>
      s.components.list.all (!·.recursive) && t.hasRace s 0 0) = true := by
    decide +kernel
  have hlarge : holdsOf guardedStore 3000 (fun s t =>
      !t.hasRace s 0 0 && t.hasRace s 0 1 && t.hasRace s 4 4) = true := by
    decide +kernel
  have hplaced : (Builder.ofScript guardedStore).Placed := by
    unfold Program.Placed
    decide +kernel
  obtain ⟨s, t, hs, hd, hseen⟩ := exists_of_holdsOf hsmall
  obtain ⟨s', t', hs', hd', hseen'⟩ := exists_of_holdsOf hlarge
  simp only [Bool.and_eq_true, Bool.not_eq_true'] at hseen hseen'
  have hrec (k : Component) (hk : k ∈ s.components.list) : k.recursive = false := by
    simpa using Array.all_eq_true_iff_forall_mem.1 hseen.1 k hk
  obtain ⟨d, hd₂, hraces⟩ := hasRace_of_smaller_budget (Builder.ofScript guardedStore)
    { contextMode := .disabled } 2 3000 s s' (t'.settle s') (by decide) rfl hs hs' hrec
    (fun i hi => hplaced i (Program.lt_of_isCall hi)) hd'
  obtain rfl : d = t.settle s := Except.ok.inj (hd₂.symm.trans hd)
  refine ⟨s, s', _, _, hs, hs', hd, hd', ?_, ?_, ?_, hraces 0 1 ?_, ?_, hraces 4 4 ?_⟩
  all_goals rw [Phases.hasRace_settle]
  exacts [hseen'.1.1, hseen.2, hseen'.1.2, hseen'.1.2, hseen'.2, hseen'.2]

/-- Two calls of `main` stand in the blocks of the functions that they call the other way round. -/
def strayCalls : List Command :=
  [.global "q" 0, .global "x" 0, .global "flag" 0,
    .declare "g" 1, .declare "f" 1, .declare "main" 0, .declare "parallel_for" 2, .const 0,
    .body 0, .block 0, .block 0, .append 0 0 (.load 2), .append 0 0 (.compare .eq 12 11),
    .append 0 0 (.branch 13 1 2), .append 0 2 (.ret none),
    .body 1, .block 1, .append 1 3 (.store 0 11), .append 1 3 (.store 0 11), .append 1 3 (.jump 4),
    .append 1 4 (.store 1 11),
    .body 2, .block 2, .block 2, .append 2 5 (.load 2), .append 2 5 (.compare .eq 14 11),
    .append 2 5 (.branch 15 7 6), .append 2 6 (.call (.direct 3) [5, 11]), .append 2 6 (.jump 7),
    .append 2 7 (.ret none),
    .append 2 1 (.call (.direct 1) [11]), .append 2 1 (.jump 2),
    .append 2 4 (.call (.direct 0) [11]), .append 2 4 (.ret none)]

/-- Where calls stand in blocks of other functions, a smaller budget can hide a race. -/
theorem not_forall_hasRace_of_smaller_budget : ¬∀ (p : Program) (c : Config) (small large : Nat)
    (s s' : Subject) (d d' : Detection), p.Finished → small ≤ large → c.contextMode = .disabled →
    Subject.prepare p { c with riskyPairBudget := small } = .ok s →
    Subject.prepare p { c with riskyPairBudget := large } = .ok s' →
    (∀ k ∈ s.components.list, k.recursive = false) →
    Detection.run s = .ok d → Detection.run s' = .ok d' →
      ∀ i j, d'.report.hasRace i j = true → d.report.hasRace i j = true := by
  intro hall
  have hsmall : holdsOf strayCalls 2 (fun s t =>
      s.components.list.all (!·.recursive) && !t.hasRace s 7 7) = true := by
    decide +kernel
  have hlarge : holdsOf strayCalls 3000 (fun s t => t.hasRace s 7 7) = true := by
    decide +kernel
  obtain ⟨s, t, hs, hd, hseen⟩ := exists_of_holdsOf hsmall
  obtain ⟨s', t', hs', hd', hseen'⟩ := exists_of_holdsOf hlarge
  simp only [Bool.and_eq_true, Bool.not_eq_true'] at hseen
  have hrec (k : Component) (hk : k ∈ s.components.list) : k.recursive = false := by
    simpa using Array.all_eq_true_iff_forall_mem.1 hseen.1 k hk
  have hraces := hall (Builder.ofScript strayCalls) { contextMode := .disabled } 2 3000 s s' _ _
    (Builder.finished_ofScript (by decide +kernel)) (by decide) rfl hs hs' hrec hd hd' 7 7
  rw [Phases.hasRace_settle, Phases.hasRace_settle] at hraces
  exact Bool.false_ne_true (hseen.2.symm.trans (hraces hseen'))

end Detection

end DataRace
