import DataRace.Guard.Exclusion
import DataRace.Proofs.Guard.Table
import DataRace.Proofs.Partition.Budget

/-!
# DataRace.Proofs.Guard.Exclusion

Accesses that exclude each other by their guards, as a matter of the program
and its risky pairs alone.

Where guards do not depend on what was asked for before, neither does the filter
by guards (`filterPairs_apart_run`).  What it finds apart it finds apart under a
larger budget (`apartBy_of_within`): a global whose partition is over budget may
change at any time, and there is no other use of the pairs.
-/

namespace DataRace

namespace Exclusion

variable {s : Subject} {ops : Operations} {par : Parallelism} {m m' : Partitioning}
  {rank : FuncId → Nat}

/-! ## the filter without a table -/

/-- The guards of an instruction, those of its callers included. -/
def guardsBy (s : Subject) (i : InstId) : List GlobalGuard :=
  GuardTable.guardsIn s (GlobalTest.read s.program) (s.program.blockOf i)

/-- Whether two guards exclude each other on one value. -/
def contradicts (s : Subject) (ops : Operations) (m : Partitioning) (g h : GlobalGuard) : Bool :=
  g.fact.excludes h.fact && !m.mayDiffer s ops g.fact.ptr g.evidence.load h.evidence.load

/-- Whether some of the guards of two places exclude each other. -/
def excludeBy (s : Subject) (ops : Operations) (m : Partitioning)
    (gs hs : List GlobalGuard) : Bool :=
  (gs.flatMap fun g => hs.map (g, ·)).any fun (g, h) => contradicts s ops m g h

/-- Whether a fork is excluded by one of two instructions. -/
def forkExcluded (s : Subject) (ops : Operations) (m : Partitioning) (i j fork : InstId) : Bool :=
  excludeBy s ops m (guardsBy s i) (guardsBy s fork) ||
    i != j && excludeBy s ops m (guardsBy s j) (guardsBy s fork)

/-- Whether two instructions never both run after a fork that makes them parallel. -/
def apartBy (s : Subject) (ops : Operations) (par : Parallelism) (m : Partitioning)
    (i j : InstId) : Bool :=
  i != j && excludeBy s ops m (guardsBy s i) (guardsBy s j) ||
    (par.mayRunParallel s.program i j).toList.all (forkExcluded s ops m i j)

/-- What was looked at so far is right. -/
def Sound (s : Subject) (x : Exclusion) : Prop :=
  x.guards.Sound s (GlobalTest.read s.program) .univ s.program.funcs.size ∅

theorem returns_guardsOf (hl : s.Layered rank) (i : InstId) :
    Returns (Sound s) (Sound s) (guardsOf s i) (guardsBy s i) :=
  fun x hx => GuardTable.returns_guards hl _ x.guards hx

theorem returns_anyExcludes (pairs : List (GlobalGuard × GlobalGuard)) :
    Returns (Sound s) (Sound s) (anyExcludes s ops m pairs)
      (pairs.any fun (g, h) => contradicts s ops m g h) := by
  induction pairs with
  | nil => exact .pure false
  | cons q rest ih =>
    obtain ⟨g, h⟩ := q
    rw [anyExcludes, List.any_cons]
    cases hex : g.fact.excludes h.fact with
    | false => simpa [contradicts, hex] using ih
    | true =>
      have hdiffer : Returns (Sound s) (Sound s)
          (mayDiffer s ops m g.fact.ptr g.evidence.load h.evidence.load)
          (m.mayDiffer s ops g.fact.ptr g.evidence.load h.evidence.load) :=
        .bind (.modify fun _ hx => hx) (.pure _)
      refine hdiffer.bind ?_
      cases hd : m.mayDiffer s ops g.fact.ptr g.evidence.load h.evidence.load with
      | true => simpa [contradicts, hex, hd] using ih
      | false => simpa [contradicts, hex, hd] using Returns.pure true

theorem returns_exclude (gs hs : List GlobalGuard) :
    Returns (Sound s) (Sound s) (exclude s ops m gs hs) (excludeBy s ops m gs hs) :=
  returns_anyExcludes _

theorem returns_excludeForks (hl : s.Layered rank) (i j : InstId) (forks : List InstId) :
    Returns (Sound s) (Sound s)
      (excludeForks s ops m (i = j) (guardsBy s i) (guardsBy s j) forks)
      (forks.all (forkExcluded s ops m i j)) := by
  induction forks with
  | nil => exact .pure true
  | cons fork rest ih =>
    rw [excludeForks, List.all_cons]
    refine (returns_guardsOf hl fork).bind ((returns_exclude _ _).bind ?_)
    cases hfirst : excludeBy s ops m (guardsBy s i) (guardsBy s fork) with
    | true => simpa [forkExcluded, hfirst] using ih
    | false =>
      by_cases hij : i = j
      · subst hij
        simpa [forkExcluded, hfirst] using Returns.pure false
      · have hne : (i != j) = true := bne_iff_ne.2 hij
        simp only [hij, decide_false, Bool.false_eq_true, if_false] at ih ⊢
        refine (returns_exclude _ _).bind ?_
        cases hsecond : excludeBy s ops m (guardsBy s j) (guardsBy s fork) with
        | true => simpa [forkExcluded, hfirst, hsecond, hne] using ih
        | false => simpa [forkExcluded, hfirst, hsecond] using Returns.pure false

theorem returns_apart (hl : s.Layered rank) (i j : InstId) :
    Returns (Sound s) (Sound s) (apart s ops par m i j) (apartBy s ops par m i j) := by
  refine (returns_guardsOf hl i).bind ((returns_guardsOf hl j).bind ?_)
  have hforks : Returns (Sound s) (Sound s) (excludeForks s ops m (i = j) _ _ _) _ :=
    returns_excludeForks hl i j (par.mayRunParallel s.program i j).toList
  by_cases hij : i = j
  · subst hij
    rw [if_pos rfl, apartBy, bne_self_eq_false, Bool.false_and, Bool.false_or]
    exact (Returns.pure false).bind hforks
  · rw [if_neg hij, apartBy, bne_iff_ne.2 hij, Bool.true_and]
    refine (returns_exclude _ _).bind ?_
    cases excludeBy s ops m (guardsBy s i) (guardsBy s j) with
    | true => exact .pure true
    | false => exact hforks

/-! ## the filter -/

/-- The filter by guards does not depend on the order in which it asks. -/
theorem filterPairs_apart_run (hl : s.Layered rank) (parts : Partitioning)
    (inst : AccessId → InstId) :
    ((parts.filterPairs fun _ a b => apart s ops par m (inst a) (inst b)).run {}).1 =
      parts.map (·.without fun _ a b => apartBy s ops par m (inst a) (inst b)) := by
  have hpart (p : Partition) : Returns (Sound s) (Sound s) (if p.risky.isOverBudget then return p
      else return { p with
        risky := ← p.risky.pruneM (fun a b => apart s ops par m (inst a) (inst b)) } :
        StateM Exclusion Partition)
      (p.without fun _ a b => apartBy s ops par m (inst a) (inst b)) := by
    unfold Partition.without
    split
    · exact .pure p
    · refine .bind (.bind (.filterM (fun q => ?_) _) (.pure _)) (.pure _)
      exact (returns_apart hl (inst q.1) (inst q.2)).bind (.pure _)
  have hsound : Sound s {} := GuardTable.sound_new s _ _
  have hall : Returns (Sound s) (Sound s)
      (parts.filterPairs fun _ a b => apart s ops par m (inst a) (inst b))
      (parts.map (·.without fun _ a b => apartBy s ops par m (inst a) (inst b))) :=
    (Returns.mapM hpart parts.parts).bind (.pure _)
  exact (hall {} hsound).1

/-! ## a larger budget -/

theorem partners_subset {p p' : Partition} (h : ∀ q ∈ p'.risky.pairs, q ∈ p.risky.pairs)
    {i j : InstId} : p'.partners ops i j ⊆ p.partners ops i j := by
  intro k hk
  simp only [Partition.partners, List.mem_filterMap, Std.TreeSet.mem_toList] at hk ⊢
  obtain ⟨q, hq, hk⟩ := hk
  exact ⟨q, h q hq, hk⟩

/-- What may change under the larger budget may change under the smaller one. -/
theorem mayDiffer_of_within (h : m.Within m') {ptr : ValueId} {i j : InstId}
    (hdiffer : m'.mayDiffer s ops ptr i j = true) : m.mayDiffer s ops ptr i j = true := by
  simp only [Partitioning.mayDiffer, Bool.or_eq_true] at hdiffer ⊢
  refine hdiffer.imp_right fun hdiffer => ?_
  cases hobj : s.pointers.only? ptr with
  | none => rfl
  | some o =>
    rw [hobj] at hdiffer
    simp only [Option.bind_some] at hdiffer ⊢
    have hfind := h.find? fun p p' hp => congrArg (Std.TreeSet.contains · o) hp.objs_eq
    generalize m.parts.find? (·.objs.contains o) = found at hfind ⊢
    generalize m'.parts.find? (·.objs.contains o) = found' at hfind hdiffer
    cases hfind with
    | none => rfl
    | @some p p' hp =>
      simp only [Bool.or_eq_true, List.any_eq_true, List.contains_iff_mem] at hdiffer ⊢
      by_cases hover : p.risky.isOverBudget = true
      · exact .inl hover
      · rcases hdiffer with hover' | ⟨store, hstore, hpartner⟩
        · exact .inl (hp.isOver hover')
        · exact .inr ⟨store, hstore,
            partners_subset (hp.subset (Bool.eq_false_iff.2 hover)) hpartner⟩

theorem contradicts_of_within (h : m.Within m') {g k : GlobalGuard}
    (hc : contradicts s ops m g k = true) : contradicts s ops m' g k = true := by
  simp only [contradicts, Bool.and_eq_true, Bool.not_eq_true'] at hc ⊢
  refine ⟨hc.1, Bool.eq_false_iff.2 fun hdiffer => ?_⟩
  rw [mayDiffer_of_within h hdiffer] at hc
  cases hc.2

theorem excludeBy_of_within (h : m.Within m') {gs hs : List GlobalGuard}
    (hex : excludeBy s ops m gs hs = true) : excludeBy s ops m' gs hs = true := by
  obtain ⟨q, hq, hc⟩ := List.any_eq_true.1 hex
  exact List.any_eq_true.2 ⟨q, hq, contradicts_of_within h hc⟩

/-- What is apart under the smaller budget is apart under the larger one. -/
theorem apartBy_of_within (h : m.Within m') {i j : InstId} (hap : apartBy s ops par m i j = true) :
    apartBy s ops par m' i j = true := by
  have hex {gs hs : List GlobalGuard} :
      excludeBy s ops m gs hs = true → excludeBy s ops m' gs hs = true := excludeBy_of_within h
  simp only [apartBy, forkExcluded, Bool.or_eq_true, Bool.and_eq_true, List.all_eq_true] at hap ⊢
  refine hap.imp (And.imp_right hex) fun hforks fork hfork => ?_
  exact (hforks fork hfork).imp hex (And.imp_right hex)

end Exclusion

end DataRace
