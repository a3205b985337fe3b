import DataRace.Proofs.Detection.Recheck

/-!
# DataRace.Proofs.Detection.Report

A report agrees with itself.

What a warning says goes back to the seeding: every pair is of two accesses of
one partition, live at the time, that stand on different sides of a fork
(`Partition.Seeded`).  The seeding may ask the alias refinement, which has
effects, so this is stated of whatever a computation returns.  The filters take
pairs away and leave the accesses (`Partitioning.Seeded.narrowed`), and the last
pruning leaves the accesses of the pairs, so in the end accesses and pairs of a
warning tell the same.

* `RaceWarning.Precedes` — the order in which races are listed;
* `RaceWarning.Consistent` — a warning that agrees with itself;
* `Detection.report_consistent` — all of this holds of the report of a detection.
-/

namespace DataRace

open Std

/-! ## the order of races -/

namespace RaceWarning

variable {v w : RaceWarning}

/-- A race is listed before another one: by the place, those without a place last, then by the
partition. -/
def Precedes (v w : RaceWarning) : Prop :=
  match v.loc, w.loc with
  | some k, some l => k.file < l.file ∨ k.file = l.file ∧
      (k.line < l.line ∨ k.line = l.line ∧ v.part < w.part)
  | some _, none => True
  | none, some _ => False
  | none, none => v.part < w.part

theorem compare_eq_lt_iff : v.compare w = .lt ↔ v.Precedes w := by
  unfold RaceWarning.compare Precedes
  cases v.loc <;> cases w.loc <;>
    simp only [Location.compare, Ordering.then_eq_lt, Ordering.then_eq_eq, compare_lt_iff_lt,
      LawfulEqCmp.compare_eq_iff_eq, reduceCtorEq]
  grind

theorem part_eq_of_compare_eq (h : v.compare w = .eq) : v.part = w.part := by
  unfold RaceWarning.compare at h
  split at h <;> simp_all [Ordering.then_eq_eq]

/-- The order of races compares one key after the other; where the place is missing it does not
count. -/
theorem compare_eq_compareLex : RaceWarning.compare =
    compareLex (compareOn (·.loc.isNone)) (compareLex (compareOn fun w => (w.loc.getD default).file)
      (compareLex (compareOn fun w => (w.loc.getD default).line) (compareOn (·.part)))) := by
  funext v w
  have hlt : Ord.compare false true = .lt := rfl
  have hgt : Ord.compare true false = .gt := rfl
  unfold RaceWarning.compare compareLex compareOn
  cases hv : v.loc <;> cases hw : w.loc <;>
    simp [hv, hw, hlt, hgt, Location.compare, Ordering.then_assoc]

instance : TransCmp RaceWarning.compare := by
  rw [compare_eq_compareLex]
  infer_instance

/-- Sorting lists races of different partitions strictly in order. -/
theorem pairwise_precedes_mergeSort {ws : List RaceWarning} (h : (ws.map (·.part)).Nodup) :
    (ws.mergeSort fun v w => (v.compare w).isLE).Pairwise Precedes := by
  have hswap (v w : RaceWarning) : w.compare v = (v.compare w).swap := OrientedCmp.eq_swap
  have hsorted : (ws.mergeSort fun v w => (v.compare w).isLE).Pairwise
      fun v w => (v.compare w).isLE :=
    List.pairwise_mergeSort (fun _ _ _ => TransCmp.isLE_trans) (fun v w => by
      rw [hswap v w]
      cases v.compare w <;> rfl) ws
  have hparts := ((List.mergeSort_perm ws fun v w => (v.compare w).isLE).map part).nodup_iff.2 h
  refine hsorted.imp₂ (fun v w hle hne => compare_eq_lt_iff.1 ?_) (List.pairwise_map.1 hparts)
  cases hvw : v.compare w with
  | lt => rfl
  | eq => exact absurd (part_eq_of_compare_eq hvw) hne
  | gt => simp [hvw] at hle

end RaceWarning

/-! ## seeding with effects -/

theorem exists_of_forall₂_mem {α β : Type} {R : α → β → Prop} {as : List α} {bs : List β}
    (h : List.Forall₂ R as bs) {b : β} (hb : b ∈ bs) : ∃ a ∈ as, R a b := by
  obtain ⟨i, hi, rfl⟩ := List.getElem_of_mem hb
  exact ⟨as.get ⟨i, h.length_eq ▸ hi⟩, List.get_mem as _, h.get (h.length_eq ▸ hi) hi⟩

/-- A partition with the pairs that were collected for it: it is one of the partitions of all
objects, with fewer accesses, and its pairs are of accesses that may race. -/
structure Partition.Seeded (s : Subject) (ops : Operations) (par : Parallelism) (x : Escape)
    (p : Partition) : Prop where
  origin : ∃ q ∈ (Partitioning.of s ops).parts, q.id = p.id ∧ q.objs = p.objs ∧
    ∀ a ∈ p.live, a ∈ q.live
  mayRace : ∀ a b, (a, b) ∈ p.risky.pairs → a ∈ p.live ∧ b ∈ p.live ∧
    Partitioning.MayRace s ops par x (fun _ _ _ => false) p.id a b

namespace Partitioning

variable {s : Subject} {ops : Operations} {par : Parallelism} {x : Escape} {m n : Partitioning}

/-- All partitions have the pairs that were collected for them. -/
structure Seeded (s : Subject) (ops : Operations) (par : Parallelism) (x : Escape)
    (m : Partitioning) :
    Prop where
  map_id : m.parts.map (·.id) = (Partitioning.of s ops).parts.map (·.id)
  parts : ∀ p ∈ m.parts, p.Seeded s ops par x

/-- Filters keep them so. -/
theorem Seeded.narrowed {kept : AccessId → AccessId → Prop} (hm : m.Seeded s ops par x)
    (h : m.Narrowed kept n) : n.Seeded s ops par x := by
  refine ⟨h.map_id.trans hm.map_id, fun q hq => ?_⟩
  obtain ⟨p, hp, hpq⟩ := exists_of_forall₂_mem h.parts hq
  have hlive : q.live = p.live := by rw [Partition.live, hpq.accesses_eq, Partition.live]
  obtain ⟨horigin, hrace⟩ := hm.parts p hp
  constructor
  · rw [hlive, hpq.id_eq, hpq.objs_eq]
    exact horigin
  · rw [hlive, hpq.id_eq]
    exact fun a b hab => hrace a b (hpq.subset _ hab)

/-- Hiding a partition prunes its accesses, nothing else. -/
theorem exists_of_mem_pruneHidden {p : Partition} (hp : p ∈ (m.pruneHidden x).parts) :
    ∃ q ∈ m.parts, q.id = p.id ∧ q.objs = p.objs ∧ q.risky = p.risky ∧
      ∀ a ∈ p.live, a ∈ q.live := by
  obtain ⟨q, hq, rfl⟩ := List.mem_map.1 hp
  refine ⟨q, hq, ?_⟩
  split
  · exact ⟨rfl, rfl, rfl, fun _ ha => ha⟩
  · exact ⟨rfl, rfl, rfl, fun a ha => (List.mem_filter.1 (live_keepAccesses q _ ▸ ha)).1⟩

theorem map_id_pruneHidden : (m.pruneHidden x).parts.map (·.id) = m.parts.map (·.id) := by
  rw [pruneHidden, map, List.map_map]
  refine List.map_congr_left fun p _ => ?_
  by_cases hp : x.escapes p.id = true <;> simp [Partition.keepAccesses, hp]

/-- Without pairs there is nothing to show. -/
theorem seeded_pruneHidden : ((Partitioning.of s ops).pruneHidden x).Seeded s ops par x := by
  refine ⟨map_id_pruneHidden, fun p hp => ?_⟩
  obtain ⟨q, hq, hid, hobjs, hrisky, hlive⟩ := exists_of_mem_pruneHidden hp
  refine ⟨⟨q, hq, hid, hobjs, hlive⟩, fun a b hab => ?_⟩
  rw [← hrisky, (fresh_of_mem_parts hq).risky] at hab
  exact absurd hab TreeSet.not_mem_emptyc

section Effects

variable {μ : Type → Type} [Monad μ] [LawfulMonad μ]

/-- Whatever is ruled out on the way, the accesses under the forks stand where they may. -/
theorem satisfiesM_underForks (isVisible : InstId → Bool) (ruledOut : AccessId → Point → μ Bool)
    (accesses : List AccessId) :
    SatisfiesM (fun found : IdMap (List (AccessId × Side)) => ∀ fork a side,
        (a, side) ∈ found.getD fork [] → a ∈ accesses ∧ isVisible fork = true ∧
          ⟨fork, side⟩ ∈ par.pointsOf s.program (ops.get a).inst)
      (underForks s ops par isVisible ruledOut accesses) := by
  refine List.satisfiesM_foldlM (by simp) fun found hfound ⟨a, q⟩ haq => ?_
  obtain ⟨c, hc, haq⟩ := List.mem_flatMap.1 haq
  obtain ⟨r, hr, heq⟩ := List.mem_map.1 haq
  cases heq
  obtain ⟨hpoint, hvisible⟩ := List.mem_filter.1 hr
  refine SatisfiesM.bind (.of_true (p := fun _ => True) fun _ => trivial) fun gone _ => ?_
  cases gone with
  | true => exact .pure hfound
  | false =>
    refine .pure fun fork b side hb => ?_
    rw [IdMap.getD_insert] at hb
    split at hb
    · next hfork =>
      subst hfork
      rcases List.mem_append.1 hb with hb | hb
      · exact hfound _ b side hb
      · obtain ⟨rfl, rfl⟩ := Prod.mk.inj (List.mem_singleton.1 hb)
        exact ⟨hc, hvisible, hpoint⟩
    · exact hfound fork b side hb

/-- A pair that crosses a visible fork is of live accesses that may race. -/
theorem mayRace_of_crosses {p : PartId} {accesses : List AccessId}
    {forks : IdMap (List (AccessId × Side))} (hids : ∀ a ∈ accesses, a ∈ ops.ids)
    (hm : m.writes = (Partitioning.of s ops).writes)
    (hforks : ∀ fork a side, (a, side) ∈ forks.getD fork [] → a ∈ accesses ∧
      (x.visibleForks p).contains fork = true ∧ ⟨fork, side⟩ ∈ par.pointsOf s.program
      (ops.get a).inst)
    {found : List (AccessId × Side)} (hfound : found ∈ forks.values) {a b : AccessId}
    (h : m.Crosses found (a, b)) :
    a ∈ accesses ∧ b ∈ accesses ∧ MayRace s ops par x (fun _ _ _ => false) p a b := by
  have hwrite (c : AccessId) (hc : c ∈ accesses) : m.isWrite c = (ops.get c).isWrite := by
    rw [← isWrite_of_iff (s := s) (hids c hc), isWrite, isWrite, hm]
  obtain ⟨fork, hfork⟩ := IdMap.mem_values.1 hfound
  obtain ⟨c, d, hc, hd, hw, hcd⟩ := h
  rw [← IdMap.getD_of_getElem? (b := []) hfork] at hc hd
  obtain ⟨hca, hvisible, hct⟩ := hforks fork c _ hc
  obtain ⟨hda, -, hdb⟩ := hforks fork d _ hd
  rw [hwrite c hca, hwrite d hda] at hw
  rw [List.contains_iff_mem] at hvisible
  obtain ⟨-, ⟨rfl, rfl⟩ | ⟨rfl, rfl⟩⟩ := RiskyPairs.ordered_eq_iff.1 hcd
  · exact ⟨hca, hda, hw, fork, hvisible, .inl ⟨⟨hct, rfl⟩, hdb, rfl⟩⟩
  · exact ⟨hda, hca, hw.symm, fork, hvisible, .inr ⟨⟨hdb, rfl⟩, hct, rfl⟩⟩

/-- Seeding collects pairs that may race, whatever is ruled out on the way. -/
theorem satisfiesM_seedVisible (ruledOut : AccessId → Point → PartId → μ Bool) :
    SatisfiesM (Seeded s ops par x)
      (((Partitioning.of s ops).pruneHidden x).seedVisible s ops par x ruledOut) := by
  let m := (Partitioning.of s ops).pruneHidden x
  -- what seeding makes of one partition
  let Grown (p p' : Partition) : Prop := p' = { p with risky := p'.risky } ∧
    ∀ q ∈ p'.risky.pairs, q ∈ p.risky.pairs ∨ ∃ forks : IdMap (List (AccessId × Side)),
      (∀ fork a side, (a, side) ∈ forks.getD fork [] → a ∈ p.live ∧
        (x.visibleForks p.id).contains fork = true ∧
          ⟨fork, side⟩ ∈ par.pointsOf s.program (ops.get a).inst) ∧
      ∃ found ∈ forks.values, m.Crosses found q
  have hgrown (p : Partition) : SatisfiesM (Grown p) (do
      let found ← underForks s ops par (x.visibleForks p.id).contains
        (fun a q => ruledOut a q p.id) p.live
      return { p with risky := found.values.foldl m.addFork p.risky }) := by
    refine (satisfiesM_underForks _ _ p.live).bind fun forks hforks => .pure ⟨rfl, fun q hq => ?_⟩
    exact ((foldl_addFork_gains m p.risky forks.values).sound q hq).imp_right fun hcross =>
      ⟨forks, hforks, hcross⟩
  refine (satisfiesM_mapM hgrown (m.pruneSequential s ops par).parts).bind
    fun parts hparts => .pure ?_
  rw [pruneSequential, map, List.forall₂_map_left_iff] at hparts
  constructor
  · have hids : List.Forall₂ Eq (m.parts.map (·.id)) (parts.map (·.id)) := by
      rw [List.forall₂_map_left_iff, List.forall₂_map_right_iff]
      exact hparts.imp fun _ _ hpq => by rw [hpq.1]; rfl
    rw [List.forall₂_eq_eq_eq] at hids
    exact hids.symm.trans map_id_pruneHidden
  · intro p' hp'
    obtain ⟨p, hp, hshape, hpairs⟩ := exists_of_forall₂_mem hparts hp'
    obtain ⟨q, hq, hid, hobjs, hrisky, hlive⟩ := exists_of_mem_pruneHidden hp
    have hfresh := fresh_of_mem_parts hq
    have hnone : p.risky.pairs = ∅ := by rw [← hrisky, hfresh.risky]
    let keep (a : AccessId) := !par.isSequential s.program (ops.get a).inst
    have hkept : ∀ a ∈ (p.keepAccesses keep).live, a ∈ q.live := fun a ha =>
      hlive a (List.mem_filter.1 (live_keepAccesses p keep ▸ ha)).1
    rw [hshape]
    refine ⟨⟨q, hq, hid, hobjs, hkept⟩, fun a b hab => ?_⟩
    obtain ⟨forks, hforks, found, hfound, hcross⟩ :=
      (hpairs (a, b) hab).resolve_left
      (by rw [Partition.keepAccesses, hnone]; exact TreeSet.not_mem_emptyc)
    exact mayRace_of_crosses (fun c hc => hfresh.accesses c (hkept c hc)) rfl hforks hfound hcross

end Effects

end Partitioning

variable {s : Subject}

/-- A detection starts with the pairs that may race, in every mode of the alias refinement. -/
theorem Screening.seeded_start {x : Screening} (h : start s = .ok x) :
    ∃ par, Parallelism.analyze s (.collect s) = .ok par ∧ x.ops = .collect s ∧
      x.parts.Seeded s (.collect s) par (.of s (.collect s) (.of s (.collect s))) := by
  obtain ⟨par, hpar, h⟩ := exists_of_bind_eq_ok h
  refine ⟨par, hpar, ?_⟩
  simp only at h
  split at h
  · cases h
    exact ⟨rfl, SatisfiesM_Id_eq.1
      (Partitioning.satisfiesM_seedVisible (μ := Id) fun _ _ _ => false)⟩
  · obtain ⟨y, hy, h⟩ := exists_of_bind_eq_ok h
    cases h
    obtain ⟨hops, hparts, -⟩ := refineParts_spec Partitioning.seeded_pruneHidden
      (Partitioning.satisfiesM_seedVisible _) hy
    exact ⟨hops, hparts⟩

/-- The filters leave it so. -/
theorem Phases.seeded {t : Phases} (h : run s = .ok t) :
    ∃ par, Parallelism.analyze s (.collect s) = .ok par ∧ t.csRefinement.ops = .collect s ∧
      t.csRefinement.parts.Seeded s (.collect s) par (.of s (.collect s) (.of s (.collect s))) := by
  have hsound := sound h
  obtain ⟨x, hx, h⟩ := exists_of_bind_eq_ok h
  obtain ⟨y, hy, h⟩ := exists_of_bind_eq_ok h
  cases h
  obtain ⟨par, hpar, hops, hparts⟩ := Screening.seeded_start hx
  refine ⟨par, hpar, ?_, hparts.narrowed hsound.narrowed_end⟩
  exact hsound.aliases.ops.trans (hsound.further.ops.trans (hsound.barriers.ops.trans
    (hsound.locks.ops.trans hops)))

/-! ## warnings -/

/-- Pairs are ordered by their first component, then by the second. -/
theorem lexOrd_compare_eq_lt_iff {q r : Nat × Nat} :
    lexOrd.compare q r = .lt ↔ q.1 < r.1 ∨ q.1 = r.1 ∧ q.2 < r.2 := by
  change compareLex (compareOn (·.1)) (compareOn (·.2)) q r = .lt ↔ _
  simp [compareLex, compareOn, Ordering.then_eq_lt, compare_lt_iff_lt]

theorem Partition.exists_mem_live {p : Partition} (h : p.isPruned = false) : ∃ a, a ∈ p.live := by
  obtain ⟨_ | a, ha, hsome⟩ := List.all_eq_false.1 h
  · exact absurd rfl hsome
  · exact ⟨a, List.mem_filterMap.2 ⟨some a, ha, rfl⟩⟩

/-- Accesses of a partition at two instructions, one of which writes. -/
def Partition.Conflict (ops : Operations) (q : Partition) (i j : InstId) : Prop :=
  ∃ a ∈ q.live, ∃ b ∈ q.live, (ops.get a).inst = i ∧ (ops.get b).inst = j ∧
    ((ops.get a).isWrite = true ∨ (ops.get b).isWrite = true)

theorem Partition.Conflict.symm {ops : Operations} {q : Partition} {i j : InstId}
    (h : q.Conflict ops i j) : q.Conflict ops j i := by
  obtain ⟨a, ha, b, hb, hi, hj, hw⟩ := h
  exact ⟨b, hb, a, ha, hj, hi, hw.symm⟩

namespace RaceWarning

/-- A warning that agrees with itself, given all accesses of the program and the code on both sides
of its forks. -/
structure Consistent (s : Subject) (ops : Operations) (par : Parallelism)
    (w : RaceWarning) : Prop where
  accesses_ne_nil : w.accesses ≠ []
  accesses_ascending : w.accesses.Pairwise (· < ·)
  pairs_ne_nil : w.overBudget = false → w.pairs ≠ []
  pairs_ascending : w.overBudget = false →
    w.pairs.Pairwise fun q r => q.1 < r.1 ∨ q.1 = r.1 ∧ q.2 < r.2
  le : w.overBudget = false → ∀ q ∈ w.pairs, q.1 ≤ q.2
  /-- The accesses are the instructions of the pairs. -/
  mem_accesses_iff : w.overBudget = false → ∀ i, i ∈ w.accesses ↔ ∃ q ∈ w.pairs, q.1 = i ∨ q.2 = i
  /-- The pairs come from accesses of the partition that the warning is for. -/
  conflict : w.overBudget = false → ∃ p ∈ (Partitioning.of s ops).parts,
    p.id = w.part ∧ p.objs.toList = w.objects ∧ ∀ q ∈ w.pairs, p.Conflict ops q.1 q.2
  parallel : w.overBudget = false →
    ∀ q ∈ w.pairs, ∃ fork, fork ∈ par.mayRunParallel s.program q.1 q.2

/-- The pairs of a warning are those of its partition, taken to instructions. -/
theorem mem_pairs_ofPartition {ops : Operations} {p : Partition} {q : InstId × InstId} :
    q ∈ (ofPartition s ops p).pairs ↔ ∃ a b, (a, b) ∈ p.risky.pairs ∧
      q = (min (ops.get a).inst (ops.get b).inst, max (ops.get a).inst (ops.get b).inst) := by
  simp [ofPartition, eq_comm]

theorem mem_accesses_ofPartition {ops : Operations} {p : Partition} {i : InstId} :
    i ∈ (ofPartition s ops p).accesses ↔ ∃ a ∈ p.live, (ops.get a).inst = i := by
  simp [ofPartition]

theorem pairs_ascending_ofPartition (ops : Operations) (p : Partition) :
    (ofPartition s ops p).pairs.Pairwise fun q r => q.1 < r.1 ∨ q.1 = r.1 ∧ q.2 < r.2 := by
  refine TreeSet.ordered_toList.imp fun {q r} hlt => ?_
  rw [lexOrd_compare_eq_lt_iff] at hlt
  exact hlt

/-- What holds of two instructions either way round holds of the smaller and the larger one. -/
theorem of_min_max {R : InstId → InstId → Prop} (hsymm : ∀ i j, R i j → R j i) {i j : InstId}
    (h : R i j) : R (min i j) (max i j) := by
  rcases Nat.le_total i j with hle | hle
  · rwa [Nat.min_eq_left hle, Nat.max_eq_right hle]
  · rw [Nat.min_eq_right hle, Nat.max_eq_left hle]
    exact hsymm i j h

theorem min_or_max_eq_iff {i j k : Nat} : min i j = k ∨ max i j = k ↔ i = k ∨ j = k := by
  omega

/-- Accesses that may race are at instructions that may run at the same time. -/
theorem exists_mem_mayRunParallel {ops : Operations} {par : Parallelism} {x : Escape}
    (hpar : par.Indexed s.program) {ruledOut : AccessId → Point → PartId → Bool} {p : PartId}
    {a b : AccessId} (h : Partitioning.MayRace s ops par x ruledOut p a b) :
    ∃ fork, fork ∈ par.mayRunParallel s.program (ops.get a).inst (ops.get b).inst := by
  obtain ⟨-, fork, -, hsides⟩ := h
  refine ⟨fork, (Parallelism.mem_mayRunParallel hpar).2 ?_⟩
  rw [Parallelism.Opposed, ← Parallelism.mem_pointsOf_trunk, ← Parallelism.mem_pointsOf_trunk,
    ← Parallelism.mem_pointsOf_branch hpar, ← Parallelism.mem_pointsOf_branch hpar]
  exact hsides.imp (fun h => ⟨h.1.1, h.2.1⟩) fun h => ⟨h.1.1, h.2.1⟩

/-- A warning for a partition agrees with itself if exactly the accesses of the pairs are left,
unless the partition is over budget. -/
theorem consistent_ofPartition {ops : Operations} {par : Parallelism} {x : Escape}
    (hpar : par.Indexed s.program) {p : Partition} (hp : p.Seeded s ops par x)
    (hlive : p.isPruned = false)
    (hids : p.risky.isOverBudget = false → ∀ a ∈ p.live, a ∈ p.risky.ids) :
    (ofPartition s ops p).Consistent s ops par := by
  obtain ⟨c, hc⟩ := Partition.exists_mem_live hlive
  obtain ⟨q, hq, hid, hobjs, hsub⟩ := hp.origin
  have hmem {r : InstId × InstId} : r ∈ (ofPartition s ops p).pairs ↔ _ := mem_pairs_ofPartition
  refine ⟨?_, TreeSet.ordered_toList.imp Nat.compare_eq_lt.1, fun hwithin => ?_,
    fun _ => pairs_ascending_ofPartition ops p, fun _ => ?_, fun hwithin i => ?_,
    fun _ => ⟨q, hq, hid, by rw [hobjs]; rfl, ?_⟩, fun _ => ?_⟩
  · exact List.ne_nil_of_mem (mem_accesses_ofPartition.2 ⟨c, hc, rfl⟩)
  · obtain ⟨⟨a, b⟩, hab, -⟩ := RiskyPairs.mem_ids_iff.1 (hids hwithin c hc)
    exact List.ne_nil_of_mem (hmem.2 ⟨a, b, hab, rfl⟩)
  · rintro r hr
    obtain ⟨a, b, -, rfl⟩ := hmem.1 hr
    exact min_le_max
  · rw [mem_accesses_ofPartition]
    constructor
    · let inst (a : AccessId) := (ops.get a).inst
      rintro ⟨a, ha, rfl⟩
      obtain ⟨⟨b, d⟩, hbd, hside⟩ := RiskyPairs.mem_ids_iff.1 (hids hwithin a ha)
      exact ⟨_, hmem.2 ⟨b, d, hbd, rfl⟩,
        min_or_max_eq_iff.2 (hside.imp (congrArg inst) (congrArg inst))⟩
    · rintro ⟨r, hr, hside⟩
      obtain ⟨a, b, hab, rfl⟩ := hmem.1 hr
      obtain ⟨ha, hb, -⟩ := hp.mayRace a b hab
      rcases min_or_max_eq_iff.1 hside with h | h
      · exact ⟨a, ha, h⟩
      · exact ⟨b, hb, h⟩
  · rintro r hr
    obtain ⟨a, b, hab, rfl⟩ := hmem.1 hr
    obtain ⟨ha, hb, hw, -⟩ := hp.mayRace a b hab
    exact of_min_max (R := q.Conflict ops) (fun _ _ => Partition.Conflict.symm)
      ⟨a, hsub a ha, b, hsub b hb, rfl, rfl, hw⟩
  · rintro r hr
    obtain ⟨a, b, hab, rfl⟩ := hmem.1 hr
    obtain ⟨-, -, hrace⟩ := hp.mayRace a b hab
    exact of_min_max (R := fun i j => ∃ fork, fork ∈ par.mayRunParallel s.program i j)
      (fun i j ⟨fork, h⟩ => ⟨fork, (Parallelism.mem_mayRunParallel_comm hpar).1 h⟩)
      (exists_mem_mayRunParallel hpar hrace)

end RaceWarning

/-! ## reports -/

/-- The partition as it is reported. -/
def Partition.reported (p : Partition) : Partition :=
  if p.risky.isOverBudget then p else p.keepAccesses p.risky.ids.contains

namespace Partition

variable {p : Partition}

theorem risky_reported (p : Partition) : p.reported.risky = p.risky := by
  unfold reported
  split <;> rfl

theorem id_reported (p : Partition) : p.reported.id = p.id := by
  unfold reported
  split <;> rfl

theorem objs_reported (p : Partition) : p.reported.objs = p.objs := by
  unfold reported
  split <;> rfl

/-- The accesses of the pairs are left, in a partition over budget all of them. -/
theorem mem_live_reported {a : AccessId} :
    a ∈ p.reported.live ↔ a ∈ p.live ∧ (p.risky.isOverBudget = false → a ∈ p.risky.ids) := by
  unfold reported
  split
  · next hover => simp [hover]
  · next hover => simp [Partitioning.live_keepAccesses, hover]

/-- The accesses of the pairs are still there. -/
theorem Seeded.reported {ops : Operations} {par : Parallelism} {x : Escape}
    (hp : p.Seeded s ops par x) : p.reported.Seeded s ops par x := by
  constructor
  · obtain ⟨q, hq, hid, hobjs, hlive⟩ := hp.origin
    rw [id_reported, objs_reported]
    exact ⟨q, hq, hid, hobjs, fun a ha => hlive a (mem_live_reported.1 ha).1⟩
  · rw [risky_reported, id_reported]
    intro a b hab
    obtain ⟨ha, hb, hrace⟩ := hp.mayRace a b hab
    have hids {c : AccessId} (hc : a = c ∨ b = c) : c ∈ p.risky.ids :=
      RiskyPairs.mem_ids_iff.2 ⟨(a, b), hab, hc⟩
    exact ⟨mem_live_reported.2 ⟨ha, fun _ => hids (.inl rfl)⟩,
      mem_live_reported.2 ⟨hb, fun _ => hids (.inr rfl)⟩, hrace⟩

end Partition

theorem Phases.outcome_parts (t : Phases) :
    t.outcome.parts = t.csRefinement.parts.parts.map (·.reported) := rfl

namespace Detection

/-- **The report agrees with itself.**  Races are listed strictly in order.  Every race has
accesses, in ascending order.  Unless it is over budget it has pairs, strictly ascending, each with
the smaller instruction first; its accesses are the instructions of the pairs, and a pair is of two
accesses of its partition, one of which writes, at instructions that may run at the same time. -/
theorem report_consistent (s : Subject) (d : Detection) (h : Detection.run s = .ok d) :
    ∃ par, Parallelism.analyze s (.collect s) = .ok par ∧
      d.report.warnings.Pairwise RaceWarning.Precedes ∧
      ∀ w ∈ d.report.warnings, w.Consistent s (.collect s) par := by
  obtain ⟨t, ht, rfl⟩ := run_eq_ok_iff.1 h
  obtain ⟨par, hpar, hops, hparts⟩ := Phases.seeded ht
  refine ⟨par, hpar, ?_, fun w hw => ?_⟩
  · rw [Phases.warnings_settle]
    refine RaceWarning.pairwise_precedes_mergeSort ?_
    have hids : (t.outcome.parts.map (·.id)).Nodup := by
      rw [t.outcome_parts, List.map_map]
      simp only [Function.comp_def, Partition.id_reported, hparts.map_id]
      exact Partitioning.nodup_ids s _
    rw [List.map_map]
    exact hids.sublist (List.filter_sublist.map _)
  · obtain ⟨p, hp, hlive, rfl⟩ := Phases.mem_warnings_settle.1 hw
    rw [t.outcome_parts] at hp
    obtain ⟨q, hq, rfl⟩ := List.mem_map.1 hp
    rw [hops]
    refine RaceWarning.consistent_ofPartition (Parallelism.indexed_of_analyze rfl hpar)
      (hparts.parts q hq).reported hlive fun hwithin a ha => ?_
    rw [Partition.risky_reported] at hwithin ⊢
    exact (Partition.mem_live_reported.1 ha).2 hwithin

/-- One global is over budget, the barrier leaves one pair of the other. -/
theorem report_consistent_loopWithBarrier : ∃ s d par v w,
    Subject.prepare (Builder.ofScript loopWithBarrier) { riskyPairBudget := 3 } = .ok s ∧
    Detection.run s = .ok d ∧ Parallelism.analyze s (.collect s) = .ok par ∧
    (v ∈ d.report.warnings ∧ v.overBudget = true ∧ v.accesses = [0, 1, 2]) ∧
    (w ∈ d.report.warnings ∧ w.overBudget = false ∧ w.accesses = [3] ∧ w.pairs = [(3, 3)]) ∧
    d.report.warnings.Pairwise RaceWarning.Precedes ∧
    w.Consistent s (.collect s) par := by
  have heval : (Subject.prepare (Builder.ofScript loopWithBarrier)
      { riskyPairBudget := 3 }).toOption.any (fun s => (Phases.run s).toOption.any fun t =>
        let warnings := (t.outcome.parts.filter fun p => !p.isPruned).map
          (RaceWarning.ofPartition s t.csRefinement.ops)
        warnings.any (fun v => v.overBudget && v.accesses == [0, 1, 2]) &&
          warnings.any (fun w => !w.overBudget && w.accesses == [3] && w.pairs == [(3, 3)])) =
          true := by
    decide +kernel
  obtain ⟨s, hs, heval⟩ := exists_of_any_toOption heval
  obtain ⟨t, ht, heval⟩ := exists_of_any_toOption heval
  have hd := run_eq_ok_iff.2 ⟨t, ht, rfl⟩
  obtain ⟨par, hpar, hsorted, hall⟩ := report_consistent s (t.settle s) hd
  have hwarnings (w : RaceWarning) : w ∈ (t.settle s).report.warnings ↔
      w ∈ (t.outcome.parts.filter fun p => !p.isPruned).map
        (RaceWarning.ofPartition s t.csRefinement.ops) := by
    rw [Phases.warnings_settle, RaceReport.collect, List.mem_mergeSort]
  simp only [Bool.and_eq_true, List.any_eq_true, ← hwarnings, Bool.not_eq_true',
    beq_iff_eq] at heval
  obtain ⟨⟨v, hv, hover, hvs⟩, w, hw, ⟨hwithin, hws⟩, hpairs⟩ := heval
  exact ⟨s, _, par, v, w, hs, hd, hpar, ⟨hv, hover, hvs⟩, ⟨hw, hwithin, hws, hpairs⟩,
    hsorted, hall w hw⟩

end Detection

end DataRace
