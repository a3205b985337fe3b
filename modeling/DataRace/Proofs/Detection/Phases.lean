import DataRace.Detection
import DataRace.Proofs.Partition.Narrowing
import DataRace.Proofs.Program.Script
import DataRace.Proofs.Subject

/-!
# DataRace.Proofs.Detection.Phases

A detection phase by phase.

After the seeding a detection runs four phases that take pairs away: by locks,
by barriers, by the further refinements, and by aliases.  `Phases.run` keeps what
each of them leaves, and a detection is what the last one leaves, reported
(`Detection.run_eq`).  Each phase narrows the partitions and records how many
pairs there are (`Screening.Narrows`).

* `Detection.run_narrows` — the pairs of each partition from phase to phase, and
  what is known of those that are left in the end.
-/

namespace DataRace

open Std

/-! ## the phases -/

namespace Screening

/-- Remove the pairs that locks keep apart. -/
def filterLocks (x : Screening) (s : Subject) (locks : Locksets) : Screening :=
  ({ x with log := Locksets.note s x.log }.filter (locks.haveCommon s)).record .lockset

/-- Remove the pairs that barriers keep apart. -/
def filterBarriers (x : Screening) (s : Subject) : Screening :=
  (x.filter ((Barriers.analyze s).separates s.program)).record .barrier

theorem filterSync_eq (x : Screening) (s : Subject) (locks : Locksets) :
    x.filterSync s locks = (x.filterLocks s locks).filterBarriers s := rfl

end Screening

/-- What the filters work on after each phase of a detection. -/
structure Phases where
  mhp : Screening
  lockset : Screening
  barrier : Screening
  furtherRefinement : Screening
  csRefinement : Screening

namespace Phases

/-- Run all phases. -/
def run (s : Subject) : Except Error Phases := do
  let mhp ← Screening.start s
  let lockset := mhp.filterLocks s (Locksets.analyze s)
  let barrier := lockset.filterBarriers s
  let furtherRefinement := barrier.filterFurther s
  let csRefinement ← furtherRefinement.filterAliases s
  return { mhp, lockset, barrier, furtherRefinement, csRefinement }

/-- The phases that record their pairs, in the order they run. -/
def list (t : Phases) : List (Phase × Screening) :=
  [(.mhp, t.mhp), (.lockset, t.lockset), (.barrier, t.barrier),
    (.furtherRefinement, t.furtherRefinement), (.csRefinement, t.csRefinement)]

/-- The partitions that are reported. -/
def outcome (t : Phases) : Partitioning := t.csRefinement.parts.pruneSafe

/-- Report what is left. -/
def settle (t : Phases) (s : Subject) : Detection :=
  let report := RaceReport.collect s t.csRefinement.ops t.outcome
  let report := if s.config.detail then report.withDetails s (Locksets.analyze s) else report
  let log := t.outcome.noteOverruns t.csRefinement.log
  { report
    plan := if s.config.annotate then some (.ofReport s.program report) else none
    stats := { t.csRefinement.stats with races := report.warnings.length }
    log := if s.config.annotate && s.config.detail then CheckPlan.note report log else log }

end Phases

/-- A detection runs the phases and reports what is left. -/
theorem Detection.run_eq (s : Subject) : Detection.run s = (Phases.run s).map (·.settle s) := by
  unfold Detection.run Phases.run
  cases Screening.start s with
  | error e => rfl
  | ok x =>
    simp only [Screening.filterSync_eq, bind, Except.bind]
    generalize ((x.filterLocks s (Locksets.analyze s)).filterBarriers s).filterFurther s = y
    cases y.filterAliases s <;> rfl

theorem Detection.run_eq_ok_iff {s : Subject} {d : Detection} :
    Detection.run s = .ok d ↔ ∃ t, Phases.run s = .ok t ∧ t.settle s = d := by
  rw [run_eq]
  cases Phases.run s <;> simp [Except.map]

/-! ## one phase -/

/-- The screening `y` is `x` after a phase: of the pairs of partitions within their budget only
those with property `kept` are left, and their number is recorded. -/
structure Screening.Narrows (phase : Phase) (kept : InstId → InstId → Prop) (x y : Screening) :
    Prop where
  ops : y.ops = x.ops
  parts : x.parts.Narrowed (fun a b => kept (x.ops.get a).inst (x.ops.get b).inst) y.parts
  recorded : y.stats.pairCounts = x.stats.pairCounts ++ [(phase, y.parts.pairCount)]

namespace Screening

variable {x y : Screening} {s : Subject}

theorem narrowed_filter (x : Screening) (apart : InstId → InstId → Bool) :
    x.parts.Narrowed (fun a b => apart (x.ops.get a).inst (x.ops.get b).inst = false)
      (x.filter apart).parts := by
  have hfilter := x.parts.satisfiesM_filterPairs (μ := Id)
    (fun _ a b => apart (x.ops.get a).inst (x.ops.get b).inst) fun _ _ _ => SatisfiesM_Id_eq.2 id
  exact SatisfiesM_Id_eq.1 hfilter

theorem narrowed_filterHeap (x : Screening) (s : Subject) :
    x.parts.Narrowed (fun _ _ => True) (x.filterHeap s).parts := by
  unfold filterHeap
  simp only
  generalize hapart : (fun p a b => _) = apart
  exact SatisfiesM_Id_eq.1 <| x.parts.satisfiesM_filterPairs (μ := Id) apart
    fun _ _ _ => .of_true fun _ _ => trivial

theorem narrowed_filterGuards (x : Screening) (s : Subject) :
    x.parts.Narrowed (fun _ _ => True) (x.filterGuards s).parts := by
  have hfilter := x.parts.satisfiesM_filterPairs
    (fun _ a b => Exclusion.apart s x.ops x.par x.parts (x.ops.get a).inst (x.ops.get b).inst)
    fun _ _ _ => .of_true fun _ _ => trivial
  have hrun := SatisfiesM_Id_eq.1 (SatisfiesM_StateT_eq.1 hfilter {})
  exact hrun

/-- A step of the alias refinement that succeeds leaves what the step returns. -/
theorem refineParts_spec {step : Refine Partitioning} {P : Partitioning → Prop}
    (hsame : P x.parts) (hstep : SatisfiesM P step) (h : x.refineParts step = .ok y) :
    y.ops = x.ops ∧ P y.parts ∧ y.stats = x.stats := by
  unfold refineParts at h
  split at h
  · cases h
    exact ⟨rfl, hsame, rfl⟩
  · next r _ =>
    have hrun := SatisfiesM_Id_eq.1 (SatisfiesM_StateT_eq.1 (SatisfiesM_ExceptT_eq.1 hstep)
      { r with solver.log := x.log })
    obtain ⟨parts, hparts, hy⟩ := exists_of_bind_eq_ok h
    cases hy
    exact ⟨rfl, hrun parts hparts, rfl⟩

theorem start_pairCounts (h : start s = .ok x) :
    x.stats.pairCounts = [(.mhp, x.parts.pairCount)] := by
  obtain ⟨par, -, h⟩ := exists_of_bind_eq_ok h
  suffices hseeded : ∃ y : Screening, y.stats.pairCounts = [] ∧ y.record .mhp = x by
    obtain ⟨y, hnone, rfl⟩ := hseeded
    simp only [record, Statistics.recordPairs, hnone, List.nil_append]
  simp only at h
  split at h
  · cases h
    exact ⟨_, rfl, rfl⟩
  · obtain ⟨y, hy, h⟩ := exists_of_bind_eq_ok h
    cases h
    obtain ⟨-, -, hstats⟩ := refineParts_spec (P := fun _ => True) trivial .trivial hy
    exact ⟨y, by rw [hstats], rfl⟩

theorem narrows_filterLocks (x : Screening) (s : Subject) (locks : Locksets) :
    Narrows .lockset (fun i j => locks.haveCommon s i j = false) x (x.filterLocks s locks) :=
  ⟨rfl, narrowed_filter { x with log := Locksets.note s x.log } _, rfl⟩

theorem narrows_filterBarriers (x : Screening) (s : Subject) :
    Narrows .barrier (fun i j => (Barriers.analyze s).separates s.program i j = false) x
      (x.filterBarriers s) :=
  ⟨rfl, narrowed_filter x _, rfl⟩

theorem narrows_filterFurther (x : Screening) (s : Subject) :
    Narrows .furtherRefinement
      (fun i j => (x.filterFurther s).par.joinApart s.program i j = false)
      x (x.filterFurther s) := by
  let y := { x with par := x.par.refine s, log := (x.par.refine s).noteRefinement s x.log }
  have hheap := y.narrowed_filterHeap s
  have hjoin := (y.filterHeap s).narrowed_filter (y.par.joinApart s.program)
  have hguards := ((y.filterHeap s).filter (y.par.joinApart s.program)).narrowed_filterGuards s
  exact ⟨rfl, ((hheap.trans hjoin).trans hguards).imp fun _ _ h => h.1.2, rfl⟩

theorem narrows_filterAliases (h : x.filterAliases s = .ok y) :
    Narrows .csRefinement (fun _ _ => True) x y := by
  obtain ⟨z, hz, h⟩ := exists_of_bind_eq_ok h
  obtain ⟨hops, hparts, hstats⟩ := refineParts_spec
    (P := x.parts.Narrowed fun _ _ => True) (.refl _ fun _ _ => trivial)
    (x.parts.satisfiesM_filterPairs _ fun _ _ _ => .of_true fun _ _ => trivial) hz
  split at h
  · cases h
    exact ⟨hops, hparts, by rw [← hstats]; rfl⟩
  · cases h
    exact ⟨hops, hparts, by rw [← hstats]; rfl⟩

end Screening

/-! ## the whole run -/

namespace Phases

variable {s : Subject} {t : Phases}

/-- What each phase does, from one to the next. -/
structure Sound (s : Subject) (t : Phases) : Prop where
  seeded : t.mhp.stats.pairCounts = [(.mhp, t.mhp.parts.pairCount)]
  locks : Screening.Narrows .lockset
    (fun i j => (Locksets.analyze s).haveCommon s i j = false) t.mhp t.lockset
  barriers : Screening.Narrows .barrier
    (fun i j => (Barriers.analyze s).separates s.program i j = false) t.lockset t.barrier
  further : Screening.Narrows .furtherRefinement
    (fun i j => t.furtherRefinement.par.joinApart s.program i j = false)
    t.barrier t.furtherRefinement
  aliases : Screening.Narrows .csRefinement (fun _ _ => True) t.furtherRefinement t.csRefinement

theorem sound (h : run s = .ok t) : Sound s t := by
  obtain ⟨x, hx, h⟩ := exists_of_bind_eq_ok h
  obtain ⟨y, hy, h⟩ := exists_of_bind_eq_ok h
  cases h
  exact {
    seeded := Screening.start_pairCounts hx
    locks := Screening.narrows_filterLocks _ _ _
    barriers := Screening.narrows_filterBarriers _ _
    further := Screening.narrows_filterFurther _ _
    aliases := Screening.narrows_filterAliases hy }

variable (h : Sound s t)

include h

/-- Each phase leaves no more than any phase before. -/
theorem Sound.pairwise_shrinks : t.list.Pairwise fun x y => x.2.parts.Shrinks y.2.parts := by
  have hchain : (t.list.map (·.2.parts)).IsChain Partitioning.Shrinks := by
    simp only [list, List.map_cons, List.map_nil, List.isChain_cons_cons, List.isChain_singleton,
      and_true]
    exact ⟨h.locks.parts.shrinks, h.barriers.parts.shrinks, h.further.parts.shrinks,
      h.aliases.parts.shrinks⟩
  exact List.pairwise_map.1 hchain.pairwise

/-- The statistics hold the number of pairs after each phase. -/
theorem Sound.pairsAfter_eq :
    ∀ x ∈ t.list, (t.settle s).stats.pairsAfter x.1 = some x.2.parts.pairCount := by
  have hcounts : (t.settle s).stats.pairCounts = t.list.map fun x =>
      (x.1, x.2.parts.pairCount) := by
    change t.csRefinement.stats.pairCounts = _
    rw [h.aliases.recorded, h.further.recorded, h.barriers.recorded, h.locks.recorded, h.seeded]
    rfl
  intro x hx
  rw [Statistics.pairsAfter, hcounts]
  simp only [list, List.mem_cons, List.not_mem_nil, or_false] at hx
  rcases hx with rfl | rfl | rfl | rfl | rfl <;> rfl

/-- What is left in the end passed the locks, the barriers and the joins. -/
theorem Sound.narrowed_end :
    t.mhp.parts.Narrowed (fun a b =>
      let i := (t.mhp.ops.get a).inst
      let j := (t.mhp.ops.get b).inst
      (Locksets.analyze s).haveCommon s i j = false ∧
        (Barriers.analyze s).separates s.program i j = false ∧
        t.furtherRefinement.par.joinApart s.program i j = false) t.csRefinement.parts := by
  have hops := h.locks.ops
  have hops' := h.barriers.ops.trans hops
  have hbarriers := h.barriers.parts
  have hfurther := h.further.parts
  rw [hops] at hbarriers
  rw [hops'] at hfurther
  exact (((h.locks.parts.trans hbarriers).trans hfurther).trans h.aliases.parts).imp
    fun _ _ hk => ⟨hk.1.1.1, hk.1.1.2, hk.1.2⟩

end Phases

namespace Detection

/-- **Filters only remove, and partitions over budget are frozen.**  From phase to phase no
partition gains a pair, so the recorded counts never grow.  From the seeding to the report a
partition over budget keeps its pairs and one within its budget stays so; a pair of the latter that
is left has no common lock, no barrier and no join that keeps it apart. -/
theorem run_narrows (s : Subject) (d : Detection) (h : Detection.run s = .ok d) :
    ∃ t : Phases, Phases.run s = .ok t ∧ d = t.settle s ∧
      t.list.Pairwise (fun x y =>
        List.Forall₂ (fun p q : Partition => q.id = p.id ∧ ∀ r ∈ q.risky.pairs, r ∈ p.risky.pairs)
          x.2.parts.parts y.2.parts.parts ∧
        y.2.parts.pairCount ≤ x.2.parts.pairCount) ∧
      (∀ x ∈ t.list, d.stats.pairsAfter x.1 = some x.2.parts.pairCount) ∧
      List.Forall₂ (fun p q : Partition => q.id = p.id ∧
          q.risky.isOverBudget = p.risky.isOverBudget ∧
          (p.risky.isOverBudget = true → q.risky.pairs = p.risky.pairs) ∧
          (p.risky.isOverBudget = false → ∀ a b, (a, b) ∈ q.risky.pairs →
            let i := (t.mhp.ops.get a).inst
            let j := (t.mhp.ops.get b).inst
            (a, b) ∈ p.risky.pairs ∧
              (Locksets.analyze s).haveCommon s i j = false ∧
              (Barriers.analyze s).separates s.program i j = false ∧
              t.furtherRefinement.par.joinApart s.program i j = false))
        t.mhp.parts.parts t.outcome.parts := by
  obtain ⟨t, ht, rfl⟩ := run_eq_ok_iff.1 h
  have hsound := Phases.sound ht
  refine ⟨t, ht, rfl, ?_, hsound.pairsAfter_eq, ?_⟩
  · exact hsound.pairwise_shrinks.imp fun hxy =>
      ⟨hxy.parts.imp fun _ _ hpq => ⟨hpq.id_eq, hpq.subset⟩, hxy.pairCount_le⟩
  · -- Pruning safe accesses leaves the pairs of every partition as they are.
    have hprune (p : Partition) (hover : Bool) (keep : AccessId → Bool) :
        (if hover then p else p.keepAccesses keep).risky = p.risky ∧
          (if hover then p else p.keepAccesses keep).id = p.id := by
      cases hover <;> exact ⟨rfl, rfl⟩
    refine List.forall₂_map_right_iff.2 (hsound.narrowed_end.parts.imp fun p q hpq => ?_)
    obtain ⟨hrisky, hid⟩ := hprune q q.risky.isOverBudget q.risky.ids.contains
    simp only [hrisky, hid]
    exact ⟨hpq.id_eq, hpq.isOverBudget_eq, hpq.frozen, fun hover a b hab =>
      ⟨hpq.subset _ hab, hpq.kept hover a b hab⟩⟩

/-- A parallel loop whose body reads a global twice and writes it, and writes another one before a
barrier and reads it after. -/
def loopWithBarrier : List Command :=
  [.global "g" 0, .global "h" 0, .global "b" 0, .declare "main" 0, .declare "body" 1,
    .declare "parallel_for" 2, .declare "barrier_wait" 1, .const 0,
    .body 1, .append 1 0 (.load 0), .append 1 0 (.load 0), .append 1 0 (.store 0 11),
    .append 1 0 (.store 1 11), .append 1 0 (.call (.direct 3) [2]), .append 1 0 (.load 1),
    .append 1 0 (.ret none),
    .body 0, .append 0 1 (.call (.direct 2) [4, 0]), .append 0 1 (.ret none)]

/-- The first global is over budget and keeps its three pairs, the barrier removes one of the two
pairs of the other. -/
theorem run_narrows_loopWithBarrier : ∃ s d t,
    Subject.prepare (Builder.ofScript loopWithBarrier) { riskyPairBudget := 3 } = .ok s ∧
    Detection.run s = .ok d ∧ Phases.run s = .ok t ∧
    d.stats.pairTable =
      [(.mhp, 5), (.lockset, 5), (.barrier, 4), (.furtherRefinement, 4), (.csRefinement, 4)] ∧
    t.mhp.parts.parts.map (fun p => (p.risky.isOverBudget, p.risky.size)) =
      [(true, 3), (false, 2)] ∧
    t.outcome.parts.map (·.risky.isOverBudget) = [true, false] := by
  have heval : (Subject.prepare (Builder.ofScript loopWithBarrier)
      { riskyPairBudget := 3 }).toOption.any (fun s => (Phases.run s).toOption.any fun t =>
        decide ((t.settle s).stats.pairTable =
          [(.mhp, 5), (.lockset, 5), (.barrier, 4), (.furtherRefinement, 4), (.csRefinement, 4)]) &&
        decide (t.mhp.parts.parts.map (fun p => (p.risky.isOverBudget, p.risky.size)) =
          [(true, 3), (false, 2)])) = true := by
    decide +kernel
  obtain ⟨s, hs, heval⟩ := exists_of_any_toOption heval
  obtain ⟨t, ht, heval⟩ := exists_of_any_toOption heval
  rw [Bool.and_eq_true, decide_eq_true_eq, decide_eq_true_eq] at heval
  have hd := run_eq_ok_iff.2 ⟨t, ht, rfl⟩
  obtain ⟨t', ht', -, -, -, hend⟩ := run_narrows s (t.settle s) hd
  obtain rfl : t = t' := Except.ok.inj (ht.symm.trans ht')
  refine ⟨s, _, t, hs, hd, ht, heval.1, heval.2, ?_⟩
  have hover : List.Forall₂ Eq (t.mhp.parts.parts.map (·.risky.isOverBudget))
      (t.outcome.parts.map (·.risky.isOverBudget)) := by
    rw [List.forall₂_map_left_iff, List.forall₂_map_right_iff]
    exact hend.imp fun _ _ hpq => hpq.2.1.symm
  rw [List.forall₂_eq_eq_eq] at hover
  calc t.outcome.parts.map (·.risky.isOverBudget)
    _ = (t.mhp.parts.parts.map fun p => (p.risky.isOverBudget, p.risky.size)).map Prod.fst := by
      rw [← hover, List.map_map]
      rfl
    _ = [true, false] := by rw [heval.2]; rfl

end Detection

end DataRace
