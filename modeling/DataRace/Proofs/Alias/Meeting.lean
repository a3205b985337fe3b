import DataRace.Proofs.Alias.Walk
import Mathlib.Data.List.Infix

/-!
# DataRace.Proofs.Alias.Meeting

When two answers may hold the same object.

Two call strings are compatible if one is the innermost part of the other, and
an abstract root speaks for every call string below it, so only two roots can
disagree.  The nodes of two answers are listed in ascending order and gone
through side by side; since a node that is passed over is smaller than all that
follow in the other list, no node of both is missed.

* `Context.compatible_iff` — what compatible contexts are;
* `Reached.meetsAlong_iff` — going through two ascending lists finds what they
  share;
* `Reached.mayAlias_iff_compatible` — the answers of both kinds of contexts.
-/

namespace DataRace

open Std

namespace Context

theorem suffixMatches_iff {a b : List InstId} :
    suffixMatches a b = true ↔ a <:+ b ∨ b <:+ a := by
  rw [suffixMatches, beq_iff_eq]
  -- The longer string is cut to the length of the shorter one, which is kept as a whole.
  rcases Nat.le_total a.length b.length with hle | hle
  · rw [Nat.min_eq_left hle, Nat.sub_self, List.drop_zero, ← List.suffix_iff_eq_drop]
    exact ⟨.inl, fun h => h.elim id fun h => h.eq_of_length_le hle ▸ List.suffix_refl _⟩
  · rw [Nat.min_eq_right hle, Nat.sub_self, List.drop_zero, eq_comm, ← List.suffix_iff_eq_drop]
    exact ⟨.inr, fun h => h.elim (fun h => h.eq_of_length_le hle ▸ List.suffix_refl _) id⟩

/-- Contexts are compatible if one call string is the innermost part of the other, and their roots
agree where both have one. -/
theorem compatible_iff {c d : Context} : c.compatible d = true ↔
    (c.sites <:+ d.sites ∨ d.sites <:+ c.sites) ∧ ∀ p ∈ c.root, ∀ q ∈ d.root, p = q := by
  rw [compatible, Bool.and_eq_true, suffixMatches_iff, and_congr_right_iff]
  intro _
  cases c.root <;> cases d.root <;> simp

theorem compatible_comm (c d : Context) : c.compatible d = d.compatible c := by
  rw [Bool.eq_iff_iff, compatible_iff, compatible_iff, or_comm]
  refine and_congr_right fun _ => ⟨fun h q hq p hp => (h p hp q hq).symm, fun h q hq p hp => ?_⟩
  exact (h p hp q hq).symm

end Context

namespace Reached

variable {r s : Reached} {n m : NodeId} {cs ds : TreeSet Context}
  {es fs : List (NodeId × TreeSet Context)}

/-! ## two ascending lists -/

/-- Two entries are of the same node, under compatible contexts. -/
def Meet (e f : NodeId × TreeSet Context) : Prop :=
  e.1 = f.1 ∧ ∃ c ∈ e.2, ∃ d ∈ f.2, Context.compatible c d = true

/-- Of the first entries, the one with the smaller node is passed over, and two of the same node are
compared. -/
theorem meetsAlong_cons_cons : meetsAlong ((n, cs) :: es) ((m, ds) :: fs) =
    match compare n m with
    | .lt => meetsAlong es ((m, ds) :: fs)
    | .gt => meetsAlong ((n, cs) :: es) fs
    | .eq => (cs.any fun c => ds.any fun d => c.compatible d) || meetsAlong es fs := rfl

/-- An entry meets none of an ascending list that starts above it. -/
theorem not_meet_of_lt {e f : NodeId × TreeSet Context} (hlt : e.1 < f.1)
    (hfs : (f :: fs).Pairwise fun e f => e.1 < f.1) : ∀ g ∈ f :: fs, ¬Meet e g ∧ ¬Meet g e := by
  intro g hg
  have hlt : e.1 < g.1 := by
    rcases List.mem_cons.1 hg with rfl | hg
    · exact hlt
    · exact hlt.trans ((List.pairwise_cons.1 hfs).1 g hg)
  exact ⟨fun h => hlt.ne h.1, fun h => hlt.ne' h.1⟩

/-- Going through two ascending lists side by side finds whether entries of them meet. -/
theorem meetsAlong_iff (hes : es.Pairwise fun e f => e.1 < f.1)
    (hfs : fs.Pairwise fun e f => e.1 < f.1) :
    meetsAlong es fs = true ↔ ∃ e ∈ es, ∃ f ∈ fs, Meet e f := by
  induction es generalizing fs with
  | nil => simp [meetsAlong]
  | cons e es ihe =>
    induction fs with
    | nil => simp [meetsAlong, meetsFrom]
    | cons f fs ihf =>
      obtain ⟨n, cs⟩ := e
      obtain ⟨m, ds⟩ := f
      have hes' := (List.pairwise_cons.1 hes).2
      have hfs' := (List.pairwise_cons.1 hfs).2
      rw [meetsAlong_cons_cons]
      cases hcmp : compare n m with
      | lt =>
        have hnone := not_meet_of_lt (e := (n, cs)) (Nat.compare_eq_lt.1 hcmp) hfs
        rw [ihe hes' hfs, List.exists_mem_cons_iff (a := (n, cs))]
        exact ⟨.inr, fun h => h.elim (fun ⟨g, hg, hmeet⟩ => absurd hmeet (hnone g hg).1) id⟩
      | gt =>
        have hnone := not_meet_of_lt (e := (m, ds)) (Nat.compare_eq_gt.1 hcmp) hes
        rw [ihf hfs']
        refine ⟨fun ⟨e, he, f, hf, hmeet⟩ => ⟨e, he, f, List.mem_cons_of_mem _ hf, hmeet⟩, ?_⟩
        rintro ⟨e, he, f, hf, hmeet⟩
        rcases List.mem_cons.1 hf with rfl | hf
        · exact absurd hmeet (hnone e he).2
        · exact ⟨e, he, f, hf, hmeet⟩
      | eq =>
        obtain rfl := Nat.compare_eq_eq.1 hcmp
        -- The rest of each list lies above the node of the two entries.
        have habove : (∀ f ∈ fs, ¬Meet (n, cs) f) ∧ ∀ e ∈ es, ¬Meet e (n, ds) :=
          ⟨fun f hf h => ((List.pairwise_cons.1 hfs).1 f hf).ne h.1,
            fun e he h => ((List.pairwise_cons.1 hes).1 e he).ne' h.1⟩
        simp only [Bool.or_eq_true, any_iff_exists_mem, ihe hes' hfs', List.exists_mem_cons_iff]
        have hhere : Meet (n, cs) (n, ds) ↔ ∃ c ∈ cs, ∃ d ∈ ds, c.compatible d = true :=
          and_iff_right rfl
        rw [← hhere]
        constructor
        · rintro (h | ⟨e, he, f, hf, h⟩)
          · exact .inl (.inl h)
          · exact .inr ⟨e, he, .inr ⟨f, hf, h⟩⟩
        · rintro ((h | ⟨f, hf, h⟩) | ⟨e, he, h | ⟨f, hf, h⟩⟩)
          · exact .inl h
          · exact absurd h (habove.1 f hf)
          · exact absurd h (habove.2 e he)
          · exact .inr ⟨e, he, f, hf, h⟩

/-! ## answers -/

theorem pairwise_entries (r : Reached) : r.entries.toList.Pairwise fun e f => e.1 < f.1 :=
  TreeMap.ordered_keys_toList.imp Nat.compare_eq_lt.1

theorem meets_iff : r.meets s = true ↔
    ∃ n c d, r.holds n c = true ∧ s.holds n d = true ∧ c.compatible d = true := by
  rw [meets, meetsAlong_iff r.pairwise_entries s.pairwise_entries]
  simp only [holds_iff]
  constructor
  · rintro ⟨⟨n, cs⟩, he, ⟨_, ds⟩, hf, rfl, c, hc, d, hd, hcd⟩
    exact ⟨n, c, d, ⟨cs, he, hc⟩, ⟨ds, hf, hd⟩, hcd⟩
  · rintro ⟨n, c, d, ⟨cs, he, hc⟩, ⟨ds, hf, hd⟩, hcd⟩
    exact ⟨(n, cs), he, (n, ds), hf, rfl, c, hc, d, hd, hcd⟩

theorem meets_comm (r s : Reached) : r.meets s = s.meets r := by
  rw [Bool.eq_iff_iff, meets_iff, meets_iff]
  constructor
  all_goals
    rintro ⟨n, c, d, hc, hd, hcd⟩
    exact ⟨n, d, c, hd, hc, Context.compatible_comm c d ▸ hcd⟩

/-- **Two answers may hold the same object** exactly if unknown memory is in one of them and
anything in the other, or some node is in both under compatible contexts; so it does not matter
which of them comes first.  Contexts with and without a root are compared alike: one call string
must be the innermost part of the other, and the roots must be the same if there are two. -/
theorem mayAlias_iff_compatible (r s : Reached) (unknown : NodeId) :
    (r.mayAlias s unknown = true ↔
      (r.contains unknown = true ∧ s.isEmpty = false) ∨
      (s.contains unknown = true ∧ r.isEmpty = false) ∨
      ∃ n c d, r.holds n c = true ∧ s.holds n d = true ∧ c.compatible d = true) ∧
    r.mayAlias s unknown = s.mayAlias r unknown ∧
    ∀ c d : Context, c.compatible d = true ↔
      (c.sites <:+ d.sites ∨ d.sites <:+ c.sites) ∧ ∀ p ∈ c.root, ∀ q ∈ d.root, p = q := by
  refine ⟨?_, ?_, fun c d => Context.compatible_iff⟩
  · rw [mayAlias, Bool.or_eq_true, Bool.or_eq_true, Bool.and_eq_true, Bool.and_eq_true,
      Bool.not_eq_true', Bool.not_eq_true', meets_iff, or_assoc]
  · rw [mayAlias, mayAlias, meets_comm r s, Bool.or_comm (r.contains unknown && _)]

end Reached

end DataRace
