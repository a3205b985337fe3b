import DataRace.Proofs.Partition.Narrowing
import DataRace.Proofs.Partition.Seeding
import Mathlib.Data.List.Forall2

/-!
# DataRace.Proofs.Partition.Budget

The partitions of one program under two budgets.

A set of pairs under the smaller budget falls *behind* the one under the larger
budget: as long as it is within its budget, both are the same.  So of a partition
that is within the smaller budget both runs see the same pairs, and what a
partition over it hides, its accesses show.

* `RiskyPairs.Behind` — the two sets while they are filled, batch by batch;
* `Partition.Within` — the two partitions afterwards, through every filter;
* `Partitioning.within_seedVisible` — they are so when the pairs are collected.
-/

namespace DataRace

open Std

/-! ## pairs under two budgets -/

namespace RiskyPairs

theorem addBatch_of_taken {r : RiskyPairs} {as bs : List AccessId}
    (h : r.all = true ∨ r.fits (as.length * bs.length) = true) : r.addBatch as bs =
      { r with
        pairs := as.foldl (fun s a =>
          bs.foldl (fun s b => s.insert (ordered a b)) s) r.pairs } := by
  rw [addBatch, if_neg]
  rcases h with h | h <;> simp [h]

/-- A set that is within its budget after a batch took the batch. -/
theorem taken_of_not_over {r : RiskyPairs} {as bs : List AccessId}
    (h : r.all = true ∨ (r.addBatch as bs).isOverBudget = false) :
    r.all = true ∨ r.fits (as.length * bs.length) = true := by
  by_contra hnot
  rw [not_or, Bool.not_eq_true, Bool.not_eq_true] at hnot
  rw [addBatch, if_pos (by simp [hnot])] at h
  simp [hnot.1, isOverBudget] at h

/-- The set `r'` is `r` under a larger budget. -/
structure Behind (r r' : RiskyPairs) : Prop where
  budget_le : r.budget ≤ r'.budget
  all_eq : r'.all = r.all
  same : r.all = true ∨ r.isOverBudget = false → r'.pairs = r.pairs ∧ r'.dropped = r.dropped

namespace Behind

variable {r r' : RiskyPairs}

theorem isOverBudget (h : Behind r r') (hover : r'.isOverBudget = true) :
    r.isOverBudget = true := by
  by_contra hnot
  obtain ⟨hpairs, hdropped⟩ := h.same (.inr (Bool.eq_false_iff.2 hnot))
  have hle := h.budget_le
  simp only [RiskyPairs.isOverBudget, Bool.or_eq_true, decide_eq_true_eq, hpairs,
    hdropped] at hover hnot
  rcases hover with hdrop | hsize
  · exact hnot (.inl hdrop)
  · exact hnot (.inr (Nat.le_trans hle hsize))

theorem addBatch (h : Behind r r') (as bs : List AccessId) :
    Behind (r.addBatch as bs) (r'.addBatch as bs) := by
  have hgains := addBatch_gains r as bs
  have hgains' := addBatch_gains r' as bs
  refine ⟨?_, ?_, fun hfree => ?_⟩
  · rw [hgains.budget_eq, hgains'.budget_eq]
    exact h.budget_le
  · rw [hgains.all_eq, hgains'.all_eq]
    exact h.all_eq
  · rw [hgains.all_eq] at hfree
    have hfree' : r.all = true ∨ r.isOverBudget = false :=
      hfree.imp_right fun hnot => Bool.eq_false_iff.2 fun hover => by
        rw [hgains.sticky hover] at hnot
        cases hnot
    obtain ⟨hpairs, hdropped⟩ := h.same hfree'
    -- a batch that fits in the smaller budget fits in the larger one
    have htaken := taken_of_not_over hfree
    have htaken' : r'.all = true ∨ r'.fits (as.length * bs.length) = true := by
      rw [h.all_eq]
      refine htaken.imp_right fun hfits => ?_
      have hle := h.budget_le
      simp only [fits, Bool.and_eq_true, decide_eq_true_eq, hpairs, hdropped] at hfits ⊢
      exact ⟨hfits.1, Nat.le_trans hfits.2 hle⟩
    rw [addBatch_of_taken htaken, addBatch_of_taken htaken', hpairs]
    exact ⟨rfl, hdropped⟩

theorem addFork (h : Behind r r') {m m' : Partitioning} (hm : m'.writes = m.writes)
    (found : List (AccessId × Side)) : Behind (m.addFork r found) (m'.addFork r' found) := by
  have hside (side : Side) (write : Bool) :
      m'.onSide side write found = m.onSide side write found := by
    simp only [Partitioning.onSide, Partitioning.isWrite, hm]
  by_cases hstop : r.all = false ∧ r.isOverBudget = true
  · -- the smaller set is closed, and says nothing about the other one
    have hgains := Partitioning.addFork_gains m' r' found
    refine ⟨?_, ?_, fun hfree => ?_⟩
    · rw [hgains.budget_eq, Partitioning.addFork, if_pos (by simp [hstop])]
      exact h.budget_le
    · rw [hgains.all_eq, Partitioning.addFork, if_pos (by simp [hstop])]
      exact h.all_eq
    · rw [Partitioning.addFork, if_pos (by simp [hstop])] at hfree
      simp [hstop] at hfree
  · have hstop' : ¬(r'.all = false ∧ r'.isOverBudget = true) := fun hover =>
      hstop ⟨h.all_eq ▸ hover.1, h.isOverBudget hover.2⟩
    unfold Partitioning.addFork
    rw [if_neg (by simpa using hstop), if_neg (by simpa using hstop')]
    simp only [hside]
    exact ((h.addBatch _ _).addBatch _ _).addBatch _ _

theorem foldl_addFork (h : Behind r r') {m m' : Partitioning} (hm : m'.writes = m.writes)
    (forks : List (List (AccessId × Side))) :
    Behind (forks.foldl m.addFork r) (forks.foldl m'.addFork r') := by
  induction forks generalizing r r' with
  | nil => exact h
  | cons found forks ih => exact ih (h.addFork hm found)

end Behind

end RiskyPairs

/-! ## filters without effects -/

/-- The partition without the pairs that are apart, unless it is over budget. -/
def Partition.without (apart : PartId → AccessId → AccessId → Bool) (p : Partition) : Partition :=
  let kept := p.risky.pairs.toList.filter fun (a, b) => !apart p.id a b
  if p.risky.isOverBudget then p
  else { p with risky.pairs := TreeSet.ofList kept lexOrd.compare }

theorem filterM_pure {μ : Type → Type} [Monad μ] [LawfulMonad μ] {α : Type} (f : α → Bool)
    (xs : List α) : (xs.filterM fun x => pure (f x) : μ (List α)) = pure (xs.filter f) := by
  have haux (xs acc : List α) : (xs.filterAuxM (fun x => pure (f x)) acc : μ (List α)) =
      pure ((xs.filter f).reverse ++ acc) := by
    induction xs generalizing acc with
    | nil => rfl
    | cons x xs ih =>
      rw [List.filterAuxM, pure_bind, ih]
      cases hx : f x <;> simp [hx]
  rw [List.filterM, haux]
  simp

/-- A filter without effects leaves the partitions without what it finds apart. -/
theorem Partitioning.filterPairs_pure (m : Partitioning)
    (apart : PartId → AccessId → AccessId → Bool) :
    Id.run (m.filterPairs fun p a b => pure (apart p a b)) = m.map (·.without apart) := by
  have hpart (p : Partition) : (if p.risky.isOverBudget then return p
      else return { p with risky := ← p.risky.pruneM fun a b => pure (apart p.id a b) } :
        Id Partition) = pure (p.without apart) := by
    unfold Partition.without
    split
    · rfl
    · simp only [RiskyPairs.pruneM, pure_bind, filterM_pure]
  simp only [filterPairs, mapM, hpart, List.mapM_pure]
  rfl

namespace Partition

variable {apart apart' : PartId → AccessId → AccessId → Bool} {p p' : Partition}

theorem narrowed_without (apart : PartId → AccessId → AccessId → Bool) (p : Partition) :
    p.Narrowed (fun a b => apart p.id a b = false) (p.without apart) := by
  unfold without
  split
  · next hover => exact ⟨rfl, fun _ h => h, fun _ => rfl, fun hnot => by simp [hover] at hnot⟩
  · next hover =>
    refine ⟨rfl, fun q hq => ?_, fun h => absurd h hover, fun _ a b hab => ?_⟩
    · simp at hq
      exact hq.1
    · simp at hab
      exact hab.2

theorem mem_without (h : p.risky.isOverBudget = false) {a b : AccessId} :
    (a, b) ∈ (p.without apart).risky.pairs ↔ (a, b) ∈ p.risky.pairs ∧ apart p.id a b = false := by
  simp [without, h]

/-- The partition `p'` is `p` under a larger budget: it is over budget only if `p` is, and has no
pair more than `p` if `p` is not. -/
structure Within (p p' : Partition) : Prop where
  id_eq : p'.id = p.id
  objs_eq : p'.objs = p.objs
  accesses_eq : p'.accesses = p.accesses
  isOver : p'.risky.isOverBudget = true → p.risky.isOverBudget = true
  subset : p.risky.isOverBudget = false → ∀ q ∈ p'.risky.pairs, q ∈ p.risky.pairs
  live : ∀ q ∈ p'.risky.pairs, q.1 ∈ p'.live ∧ q.2 ∈ p'.live

/-- Filters keep the two partitions so, if the one under the larger budget loses what the other one
loses. -/
theorem Within.without (h : Within p p')
    (happart : ∀ a b, apart p.id a b = true → apart' p.id a b = true) :
    Within (p.without apart) (p'.without apart') := by
  have hnarrow := p.narrowed_without apart
  have hnarrow' := p'.narrowed_without apart'
  refine ⟨?_, ?_, ?_, ?_, ?_, ?_⟩
  · rw [hnarrow.id_eq, hnarrow'.id_eq, h.id_eq]
  · rw [hnarrow.objs_eq, hnarrow'.objs_eq, h.objs_eq]
  · rw [hnarrow.accesses_eq, hnarrow'.accesses_eq, h.accesses_eq]
  · rw [hnarrow.isOverBudget_eq, hnarrow'.isOverBudget_eq]
    exact h.isOver
  · rw [hnarrow.isOverBudget_eq]
    rintro hwithin ⟨a, b⟩ hab
    have hwithin' : p'.risky.isOverBudget = false := Bool.eq_false_iff.2 fun hover => by
      rw [h.isOver hover] at hwithin
      cases hwithin
    rw [mem_without hwithin', h.id_eq] at hab
    refine (mem_without hwithin).2 ⟨h.subset hwithin _ hab.1, Bool.eq_false_iff.2 fun hgone => ?_⟩
    rw [happart a b hgone] at hab
    cases hab.2
  · rw [Partition.live, hnarrow'.accesses_eq]
    exact fun q hq => h.live q (hnarrow'.subset q hq)

end Partition

/-! ## partitionings under two budgets -/

/-- The partitions of `m'` are those of `m` under a larger budget. -/
structure Partitioning.Within (m m' : Partitioning) : Prop where
  writes_eq : m'.writes = m.writes
  parts : List.Forall₂ Partition.Within m.parts m'.parts

/-- The subject with another budget for risky pairs. -/
def Subject.withBudget (s : Subject) (budget : Nat) : Subject :=
  { s with config.riskyPairBudget := budget }

/-- The partition with another budget. -/
def Partition.withBudget (budget : Nat) (p : Partition) : Partition :=
  { p with risky.budget := budget }

namespace Partitioning

variable {m m' : Partitioning} {s : Subject} {ops : Operations} {par : Parallelism} {x : Escape}
  {budget : Nat}

theorem forall₂_map {α β : Type} {R : β → β → Prop} {f g : α → β} {xs : List α}
    (h : ∀ a ∈ xs, R (f a) (g a)) : List.Forall₂ R (xs.map f) (xs.map g) := by
  rw [List.forall₂_map_left_iff, List.forall₂_map_right_iff, List.forall₂_same]
  exact h

/-- The same partition is found, if it is looked for by what the budget does not decide. -/
theorem Within.find? (h : m.Within m') {pick : Partition → Bool}
    (hpick : ∀ p p', Partition.Within p p' → pick p' = pick p) :
    Option.Rel Partition.Within (m.parts.find? pick) (m'.parts.find? pick) := by
  obtain ⟨-, hparts⟩ := h
  generalize m.parts = parts at hparts ⊢
  generalize m'.parts = parts' at hparts ⊢
  induction hparts with
  | nil => exact .none
  | @cons p p' _ _ hp _ ih =>
    rw [List.find?_cons, List.find?_cons, hpick p p' hp]
    cases pick p with
    | true => exact .some hp
    | false => exact ih

theorem Within.exists_of_mem (h : m.Within m') {p' : Partition} (hp' : p' ∈ m'.parts) :
    ∃ p ∈ m.parts, p.Within p' := by
  obtain ⟨-, hparts⟩ := h
  generalize m.parts = parts at hparts ⊢
  generalize m'.parts = parts' at hparts hp'
  induction hparts with
  | nil => cases hp'
  | @cons q q' _ _ hq _ ih =>
    rcases List.mem_cons.1 hp' with rfl | hp'
    · exact ⟨q, List.mem_cons_self, hq⟩
    · obtain ⟨p, hp, hwithin⟩ := ih hp'
      exact ⟨p, List.mem_cons_of_mem q hp, hwithin⟩

theorem Within.map_without (h : m.Within m') {apart apart' : PartId → AccessId → AccessId → Bool}
    (happart : ∀ p a b, apart p a b = true → apart' p a b = true) :
    (m.map (·.without apart)).Within (m'.map (·.without apart')) := by
  refine ⟨h.writes_eq, ?_⟩
  simp only [map, List.forall₂_map_left_iff, List.forall₂_map_right_iff]
  exact h.parts.imp fun p p' hp => hp.without (happart p.id)

theorem place_withBudget (c : Config) (parts : List Partition) (o : ObjId)
    (accesses : List (Option AccessId)) :
    place { c with riskyPairBudget := budget } (parts.map (·.withBudget budget)) o accesses =
      (place c parts o accesses).map (·.withBudget budget) := by
  have hany : (parts.map (·.withBudget budget)).any (·.accesses = accesses) =
      parts.any (·.accesses = accesses) := by
    rw [List.any_map]
    rfl
  unfold place
  rw [hany]
  split
  · simp only [List.map_map]
    refine List.map_congr_left fun p _ => ?_
    by_cases hp : p.accesses = accesses
    · simp [Partition.withBudget, hp]
    · simp [Partition.withBudget, hp]
  · simp [Partition.withBudget]

/-- The budget decides nothing about the partitions. -/
theorem of_withBudget (s : Subject) (ops : Operations) (budget : Nat) :
    of (s.withBudget budget) ops = (of s ops).map (·.withBudget budget) := by
  have hfold (xs : List (ObjId × IdSet)) (parts : List Partition) :
      xs.foldl (fun parts (o, ids) => place (s.withBudget budget).config parts o
        (ids.toList.map some)) (parts.map (·.withBudget budget)) =
      (xs.foldl (fun parts (o, ids) => place s.config parts o (ids.toList.map some)) parts).map
        (·.withBudget budget) := by
    induction xs generalizing parts with
    | nil => rfl
    | cons e xs ih =>
      simp only [List.foldl_cons]
      rw [← ih]
      congr 1
      exact place_withBudget s.config parts e.1 _
  have hparts := hfold (touching s ops).toList []
  unfold of map
  rw [← hparts]
  rfl

theorem pruneHidden_withBudget : (m.map (·.withBudget budget)).pruneHidden x =
    (m.pruneHidden x).map (·.withBudget budget) := by
  simp only [pruneHidden, map, List.map_map]
  congr 1
  refine List.map_congr_left fun p _ => ?_
  by_cases hp : x.escapes p.id = true
  · simp [Partition.withBudget, hp]
  · simp [Partition.withBudget, Partition.keepAccesses, hp]

theorem seedVisible_pure (ruledOut : AccessId → Point → PartId → Bool) :
    Id.run (m.seedVisible s ops par x fun a q p => pure (ruledOut a q p)) =
      (m.pruneSequential s ops par).map fun p => { p with
        risky := (Id.run (underForks s ops par (x.visibleForks p.id).contains
          (fun a q => pure (ruledOut a q p.id)) p.live)).values.foldl m.addFork p.risky } := by
  simp only [seedVisible, seed, mapM, Id.run_bind, List.idRun_mapM]
  rfl

/-- When the pairs are collected, a larger budget changes only partitions over the smaller one. -/
theorem within_seedVisible (ruledOut : AccessId → Point → PartId → Bool)
    (hm : ∀ p ∈ m.parts, p.risky.pairs = ∅ ∧ p.risky.budget ≤ budget) :
    (Id.run (m.seedVisible s ops par x fun a q p => pure (ruledOut a q p))).Within
      (Id.run ((m.map (·.withBudget budget)).seedVisible s ops par x
        fun a q p => pure (ruledOut a q p))) := by
  rw [seedVisible_pure, seedVisible_pure]
  refine ⟨rfl, ?_⟩
  simp only [pruneSequential, map, List.map_map]
  refine forall₂_map fun p hp => ?_
  obtain ⟨hpairs, hbudget⟩ := hm p hp
  let forks := (Id.run (underForks s ops par (x.visibleForks p.id).contains
    (fun a q => pure (ruledOut a q p.id))
    (p.keepAccesses fun a => !par.isSequential s.program (ops.get a).inst).live)).values
  have hbehind : RiskyPairs.Behind p.risky (p.withBudget budget).risky :=
    ⟨hbudget, rfl, fun _ => ⟨rfl, rfl⟩⟩
  have hwrites : (m.map (·.withBudget budget)).writes = m.writes := rfl
  have hfilled := hbehind.foldl_addFork hwrites forks
  have hgains := foldl_addFork_gains (m.map (·.withBudget budget)) (p.withBudget budget).risky forks
  refine ⟨rfl, rfl, rfl, hfilled.isOverBudget, fun hwithin q hq => ?_, fun q hq => ?_⟩
  · exact (hfilled.same (.inr hwithin)).1 ▸ hq
  · rcases hgains.sound q hq with hq | hq
    · rw [Partition.withBudget, hpairs] at hq
      exact absurd hq TreeSet.not_mem_emptyc
    · obtain ⟨fork, -, a, ha, b, hb, -, -, -, rfl⟩ := exists_crosses_underForks.1 hq
      unfold RiskyPairs.ordered
      split
      · exact ⟨ha, hb⟩
      · exact ⟨hb, ha⟩

end Partitioning

end DataRace
