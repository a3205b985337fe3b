import DataRace.Report.CheckPlan
import DataRace.Proofs.Collection
import DataRace.Proofs.Program.Linked

/-!
# DataRace.Proofs.Report.CheckPlan

The numbers of a check plan.

The accesses in pairs are numbered in the order in which they are listed:

* `numbers_eq_some_iff`: a number stands for the access at that place of the list;
* `lt_of_mem_pairs`: in a linked program no number exceeds the count of
  instructions.
-/

namespace DataRace

open Std

namespace CheckPlan

/-- The accesses in the pairs of a report, in the order of functions and instructions. -/
def listing (p : Program) (r : RaceReport) : List InstId :=
  let paired : IdSet := TreeSet.ofList (r.warnings.flatMap fun w =>
    w.pairs.flatMap fun (i, j) => [i, j])
  (p.funcIds.flatMap p.funcInsts).filter paired.contains

variable {p : Program} {r : RaceReport}

theorem nodup_listing (h : p.Linked) : (listing p r).Nodup := h.nodup_listing.filter _

/-- A number stands for the access at that place of the listing. -/
theorem numbers_eq_some_iff (h : p.Linked) {i n : Nat} :
    (ofReport p r).numbers[i]? = some n ↔ (listing p r)[n]? = some i := by
  have hnumbers : (ofReport p r).numbers[i]? =
      if i ∈ listing p r then some (0 + (listing p r).idxOf i) else none :=
    IdMap.getElem?_foldl_zipIdx (nodup_listing h) 0 ∅ i
  rw [hnumbers]
  constructor
  · intro hn
    obtain ⟨hmem, hn⟩ := Option.ite_none_right_eq_some.1 hn
    rw [← Option.some.inj hn, Nat.zero_add]
    exact List.getElem?_idxOf hmem
  · intro hi
    obtain ⟨hn, rfl⟩ := List.getElem?_eq_some_iff.1 hi
    rw [if_pos (List.getElem_mem hn), Nat.zero_add, (nodup_listing h).idxOf_getElem n hn]

/-- The numbers in pairs count instructions. -/
theorem lt_of_mem_pairs (h : p.Linked) {q : Nat × Nat} (hq : q ∈ (ofReport p r).pairs) :
    q.1 < p.insts.size ∧ q.2 < p.insts.size := by
  have hlt {i n : Nat} (hn : (ofReport p r).numbers[i]? = some n) : n < p.insts.size := by
    have hlen := (List.getElem?_eq_some_iff.1 ((numbers_eq_some_iff h).1 hn)).1
    exact Nat.lt_of_lt_of_le hlen
      (Nat.le_trans (List.length_filter_le ..) h.length_listing_le)
  obtain ⟨g, hg, hq⟩ := List.mem_flatten.1 hq
  obtain ⟨w, -, rfl⟩ := List.mem_map.1 hg
  obtain ⟨⟨i, j⟩, -, hij⟩ := List.mem_filterMap.1 hq
  obtain ⟨m, hm, hij⟩ := Option.bind_eq_some_iff.1 hij
  obtain ⟨n, hn, hij⟩ := Option.bind_eq_some_iff.1 hij
  cases hij
  exact ⟨hlt hm, hlt hn⟩

end CheckPlan

end DataRace
