import DataRace.Parallel.Site
import DataRace.Proofs.Flow.Loop
import DataRace.Proofs.PointsTo.Worklist

/-!
# DataRace.Proofs.Parallel.Site

What is gathered about the sites that start threads and wait for them.

The loop around a site is recorded only where the thread id moves with an
induction variable (`Subject.Walks`), and an exit only where a loop is.

* `ThreadSite.gathered` — all that is known about a recorded site;
* `ThreadSite.countingExit?_spec` — the exit that counts.
-/

namespace DataRace

/-- Whether the thread id of a site moves with an induction variable. -/
def Subject.Walks (s : Subject) (i : InstId) : Prop :=
  ∃ x index r, ThreadSite.tidPointer? s.program i = some x ∧
    ThreadSite.indexOf? s.program x = some index ∧
    Induction.recurrence s.program (s.flowOf i).loops index = .ok (some r)

namespace ThreadSite

variable {s : Subject} {i : InstId} {t : ThreadSite}

/-- What is recorded about a site. -/
structure Gathered (s : Subject) (i : InstId) (t : ThreadSite) : Prop where
  site : t.site = i
  tidPtr : t.tidPtr = tidPointer? s.program i
  /-- Where the thread id moves, the loop around the site is recorded, and otherwise none is. -/
  loop_cases : s.Walks i ∧ t.loop = (s.flowOf i).loops.loopOfInst s.program i ∨
    ¬s.Walks i ∧ t.loop = none
  /-- The exit is one of the loop that counts for the site. -/
  exiting : ∀ e ∈ t.exiting, ∃ l x, t.loop = some l ∧
    countingExit? s ((s.flowOf i).loops.get l) i = some (e, x)

theorem gathered (h : ThreadSite.of s i = .ok t) : Gathered s i t := by
  simp only [ThreadSite.of] at h
  split at h
  · next hindex =>
    cases h
    refine ⟨rfl, rfl, .inr ⟨?_, rfl⟩, nofun⟩
    rintro ⟨x, index, r, hx, hi, -⟩
    rw [hx, Option.bind_some, hi] at hindex
    cases hindex
  · next index hindex =>
    obtain ⟨x, hx, hi⟩ := Option.bind_eq_some_iff.1 hindex
    obtain ⟨o, ho, h⟩ := exists_of_bind_eq_ok h
    cases o with
    | none =>
      cases h
      refine ⟨rfl, rfl, .inr ⟨?_, rfl⟩, nofun⟩
      rintro ⟨y, index', r, hy, hi', hr⟩
      cases hx.symm.trans hy
      cases hi.symm.trans hi'
      cases ho.symm.trans hr
    | some offset =>
      have hwalks : s.Walks i := ⟨x, index, offset, hx, hi, ho⟩
      simp only at h
      split at h
      · cases h
        exact ⟨rfl, rfl, .inl ⟨hwalks, rfl⟩, nofun⟩
      · next l hl =>
        split at h
        · cases h
          exact ⟨rfl, rfl, .inl ⟨hwalks, rfl⟩, nofun⟩
        · next exiting exit hexit =>
          split at h
          · obtain ⟨bound, -, h⟩ := exists_of_bind_eq_ok h
            cases h
            refine ⟨rfl, rfl, .inl ⟨hwalks, rfl⟩, fun e he => ?_⟩
            cases he
            exact ⟨l, exit, hl, hexit⟩
          · cases h
            exact ⟨rfl, rfl, .inl ⟨hwalks, rfl⟩, nofun⟩

namespace Gathered

variable (h : Gathered s i t)

include h

/-- A recorded loop is the smallest around the site. -/
theorem loopOfInst_eq {l : LoopId} (hl : t.loop = some l) :
    (s.flowOf i).loops.loopOfInst s.program i = some l := by
  rcases h.loop_cases with ⟨-, hloop⟩ | ⟨-, hloop⟩
  · exact hloop.symm.trans hl
  · cases hloop.symm.trans hl

/-- A site outside loops has no recorded loop. -/
theorem loop_eq_none (hnone : (s.flowOf i).loops.loopOfInst s.program i = none) :
    t.loop = none := by
  rcases h.loop_cases with ⟨-, hloop⟩ | ⟨-, hloop⟩
  · exact hloop.trans hnone
  · exact hloop

end Gathered

/-- The exit that counts is an exit of the loop, and a join runs before every latch. -/
theorem countingExit?_spec {l : Loop} {e x : BlockId} (h : countingExit? s l i = some (e, x)) :
    (e, x) ∈ l.exitEdges s.program ∧ (s.program.isSpawn i = false → ∀ a ∈ l.latches,
      (s.flow (s.program.block (s.program.blockOf i)).func).dom.dominates (s.program.blockOf i) a =
        true) := by
  unfold countingExit? at h
  simp only at h
  split at h
  · next hspawn =>
    refine ⟨?_, fun hnot => Bool.noConfusion (hspawn.symm.trans hnot)⟩
    split at h
    · exact List.mem_of_mem_head? h
    · exact List.mem_of_find?_eq_some h
  · split at h
    · next hlatch =>
      refine ⟨List.mem_of_mem_head? h, fun _ a ha => ?_⟩
      obtain ⟨b, hb, hdom⟩ := (Option.any_eq_true _ _).1 hlatch
      rw [Loop.uniqueLatch, single?_eq_some_iff] at hb
      rw [hb, List.mem_singleton] at ha
      exact ha ▸ hdom
    · cases h

end ThreadSite

end DataRace
