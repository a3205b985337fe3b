import DataRace.Parallel.Basic
import DataRace.Proofs.Flow.InductionRange

/-!
# DataRace.Proofs.Parallel.SiteRange

Finding the code on both sides of every fork succeeds.

Thread ids and loops are described by recurrences, and nothing else in the
analysis of forks and joins does arithmetic.  So it succeeds in every program
whose recurrences fit into words (`Parallelism.succeeds_analyze`).
-/

namespace DataRace

namespace ThreadSite

/-- The index of a projection is a value of the program. -/
theorem lt_of_indexOf? {p : Program} (hp : p.WellFormed) {v index : ValueId}
    (h : indexOf? p v = some index) : index < p.values.size := by
  fun_induction indexOf? p v with
  | case1 v base offset i hop =>
    cases h
    obtain ⟨k, -, hk⟩ := Option.map_eq_some_iff.1 hop
    exact hp.operand_lt (i := k) (by simp [hk, Operation.operands])
  | case2 _ _ _ _ _ ih => exact ih h
  | case4 _ _ _ _ ih => exact ih h
  | _ => cases h

end ThreadSite

variable {s : Subject} (hp : s.program.WellFormed) (hfit : s.program.RecurrencesFit)

include hp hfit

theorem ThreadSite.succeeds_of (i : InstId) : Succeeds (fun _ => True) (ThreadSite.of s i) := by
  unfold ThreadSite.of
  dsimp only
  split
  · exact .ok trivial
  · next index hindex =>
    obtain ⟨v, -, hv⟩ := Option.bind_eq_some_iff.1 hindex
    refine (Induction.succeeds_recurrence hfit (lt_of_indexOf? hp hv)).bind fun o _ => ?_
    split
    · exact .ok trivial
    · split
      · exact .ok trivial
      · split
        · exact .ok trivial
        · split
          · exact (Induction.succeeds_exitCondition hp hfit _ _).bind fun _ _ => .ok trivial
          · exact .ok trivial

theorem ThreadSite.succeeds_tripCount (t : ThreadSite) :
    Succeeds (fun _ => True) (t.tripCount s) := by
  unfold ThreadSite.tripCount
  split
  · exact Induction.succeeds_tripCount hp hfit _ _
  · exact .ok trivial

namespace JoinMatch

theorem succeeds_loopExit? (spawn join : ThreadSite) :
    Succeeds (fun _ => True) (loopExit? s spawn join) := by
  unfold loopExit?
  dsimp only
  split
  · refine (ThreadSite.succeeds_tripCount hp hfit spawn).bind fun o _ => ?_
    split
    · exact .ok trivial
    · refine (ThreadSite.succeeds_tripCount hp hfit join).bind fun o _ => ?_
      split
      · exact .ok trivial
      · split
        · split <;> exact .ok trivial
        · exact .ok trivial
  · exact .ok trivial

theorem succeeds_blocker? (spawn join : ThreadSite) :
    Succeeds (fun _ => True) (blocker? s spawn join) := by
  unfold blocker?
  split
  · split
    · exact .ok trivial
    · split
      · split
        · exact .ok trivial
        · exact (succeeds_loopExit? hp hfit spawn join).bind fun _ _ => .ok trivial
      · split
        · exact .ok trivial
        · split <;> exact .ok trivial
  · exact .ok trivial

/-- Matching a spawn against all joins succeeds. -/
theorem succeeds_of (spawn : ThreadSite) (joins : List ThreadSite) :
    Succeeds (fun _ => True) (JoinMatch.of s spawn joins) := by
  unfold JoinMatch.of
  refine Succeeds.bind (Succeeds.filterMapM fun join _ => ?_) fun _ _ => .ok trivial
  exact (succeeds_blocker? hp hfit spawn join).bind fun _ _ => .ok trivial

end JoinMatch

/-- **Finding the code on both sides of every fork succeeds.** -/
theorem Parallelism.succeeds_analyze (ops : Operations) :
    Succeeds (fun _ => True) (Parallelism.analyze s ops) := by
  have hsites (is : List InstId) : Succeeds (fun _ => True) (is.foldlM
      (fun (m : IdMap ThreadSite) i => do return m.insert i (← ThreadSite.of s i)) ∅) :=
    .foldlM trivial fun _ i _ _ =>
      (ThreadSite.succeeds_of hp hfit i).bind fun _ _ => .ok trivial
  unfold Parallelism.analyze
  refine (hsites ops.spawns).bind fun spawns _ => (hsites ops.joins).bind fun joins _ => ?_
  refine Succeeds.bind (Succeeds.mapM (Q := fun _ => True) fun spawn _ => ?_) fun _ _ => .ok trivial
  exact (JoinMatch.succeeds_of hp hfit _ _).bind fun _ _ => .ok trivial

end DataRace
