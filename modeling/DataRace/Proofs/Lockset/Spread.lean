import DataRace.Lockset
import DataRace.Proofs.Flow.Run
import DataRace.Proofs.Flow.Search

/-!
# DataRace.Proofs.Lockset.Spread

How code comes to be protected.

Protection spreads forwards, so a protected instruction was reached from
somewhere: it is where the spreading started, it begins a block, or control
passes to it from a protected instruction that is no unlock.

* `mem_region_cases`, `mem_spread_cases` — this for one region and for all;
* `Locksets.spreadFrom` is the code that some locks are spread over.
-/

namespace DataRace

open Std

namespace Locksets

variable {s : Subject} {implied : BlockId → Bool} {unlocks seen inside : IdSet}
  {stack : List InstId}

/-! ## steps inside and outside a region -/

theorem follows_of_mem_nextInside {p : Program} {dom : Dominance} {root i j : Nat}
    (h : j ∈ nextInside p dom root i) : p.Follows i j := by
  unfold nextInside at h
  unfold Program.Follows
  split at h
  · next hterm =>
    rw [if_pos hterm]
    obtain ⟨b, hb, hfirst⟩ := List.mem_filterMap.1 h
    exact ⟨b, (List.mem_filter.1 hb).1, hfirst⟩
  · next hterm =>
    rw [if_neg hterm]
    exact Option.mem_toList.1 h

theorem firstInst_of_mem_nextOutside {p : Program} {dom : Dominance} {root i j : Nat}
    (h : j ∈ nextOutside p dom root i) : ∃ b, p.firstInst b = some j := by
  unfold nextOutside at h
  split at h
  · obtain ⟨b, -, hfirst⟩ := List.mem_filterMap.1 h
    exact ⟨b, hfirst⟩
  · cases h

/-- Inside a region control comes from its root over instructions that are no unlocks. -/
theorem mem_region_cases {root j : Nat} (h : j ∈ region s unlocks seen root) :
    j = root ∨ ∃ d ∈ region s unlocks seen root, d ∉ unlocks ∧ s.program.Follows d j := by
  rcases mem_reachable_cases h with hroot | ⟨d, hd, hnext⟩
  · exact .inl (List.mem_singleton.1 hroot)
  · refine .inr ⟨d, hd, ?_⟩
    split at hnext
    · cases hnext
    · next hunlock =>
      exact ⟨fun hmem => hunlock (TreeSet.contains_iff_mem.2 hmem),
        follows_of_mem_nextInside (List.mem_filter.1 hnext).1⟩

theorem firstInst_of_mem_frontierOf {found : IdSet} {root j : Nat}
    (h : j ∈ frontierOf s unlocks found root) : ∃ b, s.program.firstInst b = some j := by
  rw [frontierOf, TreeSet.mem_ofList, List.contains_iff_mem] at h
  obtain ⟨i, -, hnext⟩ := List.mem_flatMap.1 h
  exact firstInst_of_mem_nextOutside hnext

/-! ## spreading -/

theorem mem_spread_of_mem {j : Nat} (h : j ∈ inside) :
    j ∈ spread s implied unlocks seen inside stack := by
  fun_induction spread s implied unlocks seen inside stack with
  | case1 => exact h
  | case2 seen inside i rest b hi himp found ih => exact ih (TreeSet.mem_union_of_left h)
  | case3 seen inside i rest b hi himp ih => exact ih h
  | case4 seen inside i rest hi ih => exact ih h

theorem lt_of_mem_spread {j : Nat} (h : j ∈ spread s implied unlocks seen inside stack) :
    j ∈ inside ∨ j < s.program.insts.size := by
  fun_induction spread s implied unlocks seen inside stack with
  | case1 => exact .inl h
  | case2 seen inside i rest b hi himp found ih =>
    rcases ih h with h | h
    · exact (TreeSet.mem_union_iff.1 h).imp_right lt_of_mem_reachable
    · exact .inr h
  | case3 seen inside i rest b hi himp ih => exact ih h
  | case4 seen inside i rest hi ih => exact ih h

/-- Where control comes from when it gets to an instruction that protection was spread to. -/
theorem mem_spread_cases {j : Nat} (h : j ∈ spread s implied unlocks seen inside stack) :
    j ∈ inside ∨ j ∈ stack ∨ (∃ b, s.program.firstInst b = some j) ∨
      ∃ d ∈ spread s implied unlocks seen inside stack, d ∉ unlocks ∧ s.program.Follows d j := by
  fun_induction spread s implied unlocks seen inside stack with
  | case1 => exact .inl h
  | case2 seen inside i rest b hi himp found ih =>
    rcases ih h with hin | hstack | hlater
    · rcases TreeSet.mem_union_iff.1 hin with hin | hfound
      · exact .inl hin
      · rcases mem_region_cases hfound with rfl | ⟨d, hd, hstep⟩
        · exact .inr (.inl List.mem_cons_self)
        · exact .inr (.inr (.inr ⟨d, mem_spread_of_mem (TreeSet.mem_union_of_right hd), hstep⟩))
    · rcases List.mem_append.1 hstack with hfront | hrest
      · rw [List.mem_reverse, TreeSet.mem_toList] at hfront
        exact .inr (.inr (.inl (firstInst_of_mem_frontierOf hfront)))
      · exact .inr (.inl (List.mem_cons_of_mem i hrest))
    · exact .inr (.inr hlater)
  | case3 seen inside i rest b hi himp ih =>
    rcases ih h with hin | hstack | hlater
    · exact .inl hin
    · rcases List.mem_append.1 hstack with hsucc | hrest
      · obtain ⟨c, -, hfirst⟩ := List.mem_filterMap.1 (List.mem_reverse.1 hsucc)
        exact .inr (.inr (.inl ⟨c, hfirst⟩))
      · exact .inr (.inl (List.mem_cons_of_mem i hrest))
    · exact .inr (.inr hlater)
  | case4 seen inside i rest hi ih =>
    rcases ih h with hin | hstack | hlater
    · exact .inl hin
    · exact .inr (.inl (List.mem_cons_of_mem i hstack))
    · exact .inr (.inr hlater)

/-- The code that some locks are spread over when they are held from `root` on. -/
def spreadFrom (s : Subject) (t : LockSites) (root : InstId) (locks : IdSet) : IdSet :=
  let guards := s.guardsAt (Comparison.read s.program)
  let start := s.program.blockOf root
  spread s (fun b => b == start || Guard.implies (guards b) (guards start)) (unlocksOf s t locks)
    ∅ ∅ [root]

theorem mem_protectedFrom_iff {t : LockSites} {root i : Nat} {locks : IdSet} :
    i ∈ protectedFrom s t root locks ↔ i ∈ spreadFrom s t root locks ∧
      s.program.isInteresting i = true ∧ i ∉ unlocksOf s t locks := by
  rw [protectedFrom, IdSet.mem_filter, Bool.and_eq_true, Bool.not_eq_true', ← Bool.not_eq_true,
    TreeSet.contains_iff_mem]
  rfl

end Locksets

end DataRace
