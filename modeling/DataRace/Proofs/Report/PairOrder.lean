import DataRace.Report.PairFile
import DataRace.Proofs.Collection
import Mathlib.Data.List.Sort
import Mathlib.Data.Prod.Lex

/-!
# DataRace.Proofs.Report.PairOrder

The order of the pairs of a pair file.

A pair is ranked by how often its ids occur in all the pairs, and then by the
ids.  The ranks depend on the pairs as a whole, but not on how they are listed:
two listings of the same pairs agree on all ranks, and different pairs never
rank the same.  So the sorted listing is the same for both.

* `getD_tally` — one pass over the pairs counts the occurrences of every id;
* `order_eq_mergeSort` — ordering is sorting by rank;
* `order_canonical` — the order is a sort, and it only depends on which pairs
  there are.
-/

namespace DataRace

open Std

namespace PairFile

variable {ps qs : List IdPair} {q : IdPair}

/-! ## occurrences -/

theorem occurrences_cons (q : IdPair) (ps : List IdPair) (id : Nat) :
    occurrences (q :: ps) id =
      occurrences ps id + ((if q.1 = id then 1 else 0) + if q.2 = id then 1 else 0) := by
  simp only [occurrences, List.map_cons, List.count_cons, beq_iff_eq]
  omega

theorem occurrences_perm (h : ps.Perm qs) (id : Nat) : occurrences ps id = occurrences qs id := by
  rw [occurrences, occurrences, (h.map _).count_eq, (h.map _).count_eq]

theorem getD_bump (m : TreeMap Nat Nat) (a id : Nat) :
    (tally.bump m a).getD id 0 = m.getD id 0 + if a = id then 1 else 0 := by
  rw [tally.bump, TreeMap.getD_insert]
  by_cases h : a = id
  · simp [h]
  · simp [h]

/-- The pass over the pairs counts the occurrences of every id. -/
theorem getD_tally (ps : List IdPair) (id : Nat) : (tally ps).getD id 0 = occurrences ps id := by
  have hfold (m : TreeMap Nat Nat) : (ps.foldl (fun m q => tally.bump (tally.bump m q.1) q.2)
      m).getD id 0 = m.getD id 0 + occurrences ps id := by
    induction ps generalizing m with
    | nil => rfl
    | cons q ps ih =>
      rw [List.foldl_cons, ih, getD_bump, getD_bump, occurrences_cons]
      omega
  rw [tally, hfold, TreeMap.getD_emptyc, Nat.zero_add]

/-! ## ranks -/

/-- How often the ids of a pair occur in the pairs, one after the other. -/
def weight (ps : List IdPair) (q : IdPair) : Nat := occurrences ps q.1 + occurrences ps q.2

/-- The place of a pair among the pairs: by weight, then by the first id, then by the second. -/
def rank (ps : List IdPair) (q : IdPair) : Nat ×ₗ Nat ×ₗ Nat := toLex (weight ps q, toLex q)

theorem rank_injective (ps : List IdPair) : Function.Injective (rank ps) := fun _ _ h =>
  toLex_inj.1 (Prod.mk.inj (toLex_inj.1 h)).2

theorem rank_perm (h : ps.Perm qs) : rank ps = rank qs := by
  funext q
  rw [rank, rank, weight, weight, occurrences_perm h, occurrences_perm h]

theorem keyLe_eq (ps : List IdPair) (p q : IdPair) :
    keyLe (weight ps p, p) (weight ps q, q) = decide (rank ps p ≤ rank ps q) := by
  rw [Bool.eq_iff_iff, decide_eq_true_iff, rank, rank, Prod.Lex.toLex_le_toLex,
    Prod.Lex.toLex_le_toLex]
  simp [keyLe]

/-- Ordering pairs is sorting them by rank. -/
theorem order_eq_mergeSort (ps : List IdPair) :
    order ps = ps.mergeSort fun p q => rank ps p ≤ rank ps q := by
  simp only [order, getD_tally]
  rw [show (ps.map fun p => (occurrences ps p.1 + occurrences ps p.2, p)) =
      ps.map fun p => (weight ps p, p) from rfl,
    ← List.map_mergeSort fun p _ q _ => (keyLe_eq ps p q).symm, List.map_map]
  exact List.map_id _

/-! ## the order -/

theorem order_perm (ps : List IdPair) : (order ps).Perm ps := by
  rw [order_eq_mergeSort]
  exact List.mergeSort_perm ps _

theorem pairwise_order (ps : List IdPair) :
    (order ps).Pairwise fun p q => rank ps p ≤ rank ps q := by
  rw [order_eq_mergeSort]
  refine (List.pairwise_mergeSort (fun a b c hab hbc => ?_) (fun a b => ?_) ps).imp
    of_decide_eq_true
  · exact decide_eq_true ((of_decide_eq_true hab).trans (of_decide_eq_true hbc))
  · rw [Bool.or_eq_true, decide_eq_true_iff, decide_eq_true_iff]
    exact le_total _ _

/-- Listings of the same pairs are ordered in the same way. -/
theorem order_eq_of_perm (h : ps.Perm qs) : order ps = order qs := by
  have hsorted := pairwise_order ps
  rw [rank_perm h] at hsorted
  refine List.Perm.eq_of_pairwise (fun p q _ _ hpq hqp => ?_) hsorted (pairwise_order qs)
    ((order_perm ps).trans (h.trans (order_perm qs).symm))
  exact rank_injective qs (hpq.antisymm hqp)

/-- **Ordering is a canonical sort.**  The ordered pairs are the pairs, sorted by how often both ids
occur in them and then by the ids; pairs in order stay as they are; and two lists are ordered to the
same list exactly if they hold the same pairs, each as often. -/
theorem order_canonical (ps : List IdPair) :
    (order ps).Perm ps ∧
    (order ps).Pairwise (fun p q => rank ps p ≤ rank ps q) ∧
    order (order ps) = order ps ∧
    ∀ qs, order qs = order ps ↔ qs.Perm ps := by
  refine ⟨order_perm ps, pairwise_order ps, order_eq_of_perm (order_perm ps), fun qs => ?_⟩
  refine ⟨fun h => ?_, order_eq_of_perm⟩
  have hordered := order_perm qs
  rw [h] at hordered
  exact hordered.symm.trans (order_perm ps)

end PairFile

end DataRace
