import DataRace.Partition.Basic
import DataRace.Proofs.Collection
import Mathlib

/-!
# DataRace.Proofs.Partition.Narrowing

What a filter of risky pairs can do to the partitions.

The filters differ in what they ask and in the effects they have while they
ask: some are plain tests, some remember guards, some run alias queries that may
be broken off.  What they leave behind has one shape, `Partition.Narrowed`:
pairs may be gone, nothing else is different, a partition over budget is not
touched, and every pair that is left was asked about and not found apart.  The
shape composes, so a sequence of filters has it as well.

* `Partition.Narrowed.trans` — two filters after another;
* `Partition.Narrowed.isOverBudget_eq` — no filter moves a partition over its budget or back;
* `Partitioning.satisfiesM_filterPairs` — every filter narrows, whatever its effects are.
-/

namespace DataRace

open Std

/-- A set of pairs within another one is no larger. -/
theorem PairSet.size_le_of_subset {s t : PairSet} (h : ∀ q ∈ s, q ∈ t) : s.size ≤ t.size := by
  have hsub : s.toList ⊆ t.toList := fun q hq =>
    TreeSet.mem_toList.2 (h q (TreeSet.mem_toList.1 hq))
  have hnodup : s.toList.Nodup := TreeSet.distinct_toList.imp fun hne heq =>
    hne (LawfulEqCmp.compare_eq_iff_eq.2 heq)
  rw [← TreeSet.length_toList, ← TreeSet.length_toList]
  exact (hnodup.subperm hsub).length_le

/-! ## one partition -/

/-- The partition `q` is `p` after a filter that leaves only the pairs with property `kept`. -/
structure Partition.Narrowed (kept : AccessId → AccessId → Prop) (p q : Partition) : Prop where
  shape : q = { p with risky.pairs := q.risky.pairs }
  subset : ∀ r ∈ q.risky.pairs, r ∈ p.risky.pairs
  frozen : p.risky.isOverBudget = true → q.risky.pairs = p.risky.pairs
  kept : p.risky.isOverBudget = false → ∀ a b, (a, b) ∈ q.risky.pairs → kept a b

namespace Partition.Narrowed

variable {kept kept' : AccessId → AccessId → Prop} {p q r : Partition}

theorem refl (p : Partition) (hkept : ∀ a b, kept a b) : Narrowed kept p p where
  shape := rfl
  subset _ h := h
  frozen _ := rfl
  kept _ a b _ := hkept a b

theorem id_eq (h : Narrowed kept p q) : q.id = p.id := by rw [h.shape]

theorem objs_eq (h : Narrowed kept p q) : q.objs = p.objs := by rw [h.shape]

theorem accesses_eq (h : Narrowed kept p q) : q.accesses = p.accesses := by rw [h.shape]

theorem size_le (h : Narrowed kept p q) : q.risky.size ≤ p.risky.size :=
  PairSet.size_le_of_subset h.subset

/-- Whether a partition is over budget does not change: while it is, no pair goes, and while it is
not, there are only fewer pairs. -/
theorem isOverBudget_eq (h : Narrowed kept p q) : q.risky.isOverBudget = p.risky.isOverBudget := by
  have hbudget : q.risky.budget = p.risky.budget := by rw [h.shape]
  have hdropped : q.risky.dropped = p.risky.dropped := by rw [h.shape]
  cases hover : p.risky.isOverBudget with
  | true => rw [← hover, RiskyPairs.isOverBudget, RiskyPairs.isOverBudget, hbudget, hdropped,
      h.frozen hover]
  | false =>
    have hle := PairSet.size_le_of_subset h.subset
    simp only [RiskyPairs.isOverBudget, hbudget, hdropped, Bool.or_eq_false_iff,
      decide_eq_false_iff_not] at hover ⊢
    exact ⟨hover.1, by omega⟩

theorem trans (h : Narrowed kept p q) (h' : Narrowed kept' q r) :
    Narrowed (fun a b => kept a b ∧ kept' a b) p r where
  shape := by rw [h'.shape, h.shape]
  subset e he := h.subset e (h'.subset e he)
  frozen hover := (h'.frozen (h.isOverBudget_eq.trans hover)).trans (h.frozen hover)
  kept hover a b hab :=
    ⟨h.kept hover a b (h'.subset _ hab), h'.kept (h.isOverBudget_eq.trans hover) a b hab⟩

theorem imp (h : Narrowed kept p q) (himp : ∀ a b, kept a b → kept' a b) : Narrowed kept' p q where
  shape := h.shape
  subset := h.subset
  frozen := h.frozen
  kept hover a b hab := himp a b (h.kept hover a b hab)

end Partition.Narrowed

/-! ## all partitions -/

theorem forall₂_trans {α : Type} {R S T : α → α → Prop} (htrans : ∀ a b c, R a b → S b c → T a c)
    {as bs cs : List α} (h : List.Forall₂ R as bs) (h' : List.Forall₂ S bs cs) :
    List.Forall₂ T as cs := by
  induction h generalizing cs with
  | nil =>
    cases h'
    exact .nil
  | cons hab _ ih =>
    cases h' with
    | cons hbc hbcs => exact .cons (htrans _ _ _ hab hbc) (ih hbcs)

/-- Every partition is narrowed, and the writes are the same. -/
structure Partitioning.Narrowed (kept : AccessId → AccessId → Prop)
    (m n : Partitioning) : Prop where
  writes : n.writes = m.writes
  parts : List.Forall₂ (Partition.Narrowed kept) m.parts n.parts

namespace Partitioning.Narrowed

variable {kept kept' : AccessId → AccessId → Prop} {m n o : Partitioning}

theorem refl (m : Partitioning) (hkept : ∀ a b, kept a b) : Narrowed kept m m :=
  ⟨rfl, List.forall₂_same.2 fun p _ => .refl p hkept⟩

theorem trans (h : Narrowed kept m n) (h' : Narrowed kept' n o) :
    Narrowed (fun a b => kept a b ∧ kept' a b) m o where
  writes := h'.writes.trans h.writes
  parts := forall₂_trans (fun _ _ _ hpq hqr => hpq.trans hqr) h.parts h'.parts

theorem imp (h : Narrowed kept m n) (himp : ∀ a b, kept a b → kept' a b) : Narrowed kept' m n :=
  ⟨h.writes, h.parts.imp fun _ _ hpq => hpq.imp himp⟩

/-- There are no more pairs than before. -/
theorem pairCount_le (h : Narrowed kept m n) : n.pairCount ≤ m.pairCount := by
  have hparts := h.parts
  unfold pairCount
  generalize m.parts = ps at hparts ⊢
  generalize n.parts = qs at hparts ⊢
  induction hparts with
  | nil => exact Nat.le_refl _
  | cons hpq _ ih => exact Nat.add_le_add hpq.size_le ih

end Partitioning.Narrowed

/-- The partitions `m` may lose pairs to become `n`. -/
def Partitioning.Shrinks (m n : Partitioning) : Prop := Narrowed (fun _ _ => True) m n

namespace Partitioning

theorem Narrowed.shrinks {kept : AccessId → AccessId → Prop} {m n : Partitioning}
    (h : Narrowed kept m n) : m.Shrinks n := h.imp fun _ _ _ => trivial

instance : Trans Shrinks Shrinks Shrinks := ⟨fun h h' => (Narrowed.trans h h').shrinks⟩

end Partitioning

/-! ## filters with effects -/

section Effects

variable {μ : Type → Type} [Monad μ] [LawfulMonad μ] {α β : Type}

theorem satisfiesM_filterM {P : α → Prop} {f : α → μ Bool}
    (hf : ∀ x, SatisfiesM (fun keep => keep = true → P x) (f x)) (xs : List α) :
    SatisfiesM (fun ys => ∀ y ∈ ys, y ∈ xs ∧ P y) (xs.filterM f) := by
  have haux (xs acc : List α) :
      SatisfiesM (fun ys => ∀ y ∈ ys, y ∈ acc ∨ y ∈ xs ∧ P y) (xs.filterAuxM f acc) := by
    induction xs generalizing acc with
    | nil => exact .pure fun y hy => .inl hy
    | cons x xs ih =>
      refine (hf x).bind fun keep hkeep => (ih _).imp fun hys y hy => ?_
      cases keep <;> grind
  exact (haux xs []).bind fun ys hys => .pure fun y hy => by simpa using hys y (by simpa using hy)

theorem satisfiesM_mapM {R : α → β → Prop} {f : α → μ β} (hf : ∀ x, SatisfiesM (R x) (f x))
    (xs : List α) : SatisfiesM (List.Forall₂ R xs) (xs.mapM f) := by
  induction xs with
  | nil =>
    rw [List.mapM_nil]
    exact .pure .nil
  | cons x xs ih =>
    rw [List.mapM_cons]
    exact (hf x).bind fun y hy => ih.bind fun ys hys => .pure (.cons hy hys)

theorem RiskyPairs.satisfiesM_pruneM {kept : AccessId → AccessId → Prop} (r : RiskyPairs)
    {drop : AccessId → AccessId → μ Bool}
    (hdrop : ∀ a b, SatisfiesM (fun gone => gone = false → kept a b) (drop a b)) :
    SatisfiesM (fun r' : RiskyPairs => r' = { r with pairs := r'.pairs } ∧
      ∀ a b, (a, b) ∈ r'.pairs → (a, b) ∈ r.pairs ∧ kept a b) (r.pruneM drop) := by
  have hasked (q : AccessId × AccessId) : SatisfiesM (fun keep => keep = true → kept q.1 q.2)
      (do return !(← drop q.1 q.2)) :=
    (hdrop q.1 q.2).bind fun gone hgone => .pure fun hkeep => hgone (by simpa using hkeep)
  refine (satisfiesM_filterM hasked r.pairs.toList).bind fun ys hys =>
    .pure ⟨rfl, fun a b hab => ?_⟩
  have hab := hys (a, b) (by simpa using TreeSet.mem_ofList.1 hab)
  exact ⟨TreeSet.mem_toList.1 hab.1, hab.2⟩

/-- **A filter narrows.**  Whatever effects its questions have, what is left of each partition was
not found apart. -/
theorem Partitioning.satisfiesM_filterPairs {kept : AccessId → AccessId → Prop} (m : Partitioning)
    (apart : PartId → AccessId → AccessId → μ Bool)
    (hapart : ∀ p a b, SatisfiesM (fun gone => gone = false → kept a b) (apart p a b)) :
    SatisfiesM (Partitioning.Narrowed kept m) (m.filterPairs apart) := by
  have hpart (p : Partition) : SatisfiesM (Partition.Narrowed kept p) (if p.risky.isOverBudget then
      return p else return { p with risky := ← p.risky.pruneM (apart p.id) } : μ Partition) := by
    split
    · next hover =>
      exact .pure ⟨rfl, fun _ h => h, fun _ => rfl, fun hnot => by simp [hover] at hnot⟩
    · next hover =>
      refine (p.risky.satisfiesM_pruneM (hapart p.id)).bind fun r hr => .pure ?_
      exact ⟨by rw [hr.1], fun e he => (hr.2 e.1 e.2 he).1, fun h => absurd h hover,
        fun _ a b hab => (hr.2 a b hab).2⟩
  exact (satisfiesM_mapM hpart m.parts).bind fun parts hparts => .pure ⟨rfl, hparts⟩

end Effects

end DataRace
