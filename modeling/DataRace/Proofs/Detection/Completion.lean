import DataRace.Proofs.Alias.Unbroken
import DataRace.Proofs.Detection.Phases
import DataRace.Proofs.Parallel.SiteRange
import DataRace.Proofs.PointsTo.OffsetRange

/-!
# DataRace.Proofs.Detection.Completion

When a detection comes to its end.

Offsets and constants come from the program with all their bits, and a sum of
them may leave its word: then the whole analysis is broken off.  Nothing else
breaks it off, so a detection of a program whose offsets and recurrences fit
into their words has an outcome (`Detection.exists_run`).  `fieldPastWord` and
`scaledPastWord` are programs without one.
-/

namespace DataRace

open Refine

/-- Valid settings let an alias query take a step. -/
theorem Config.aliasBudget_pos (c : Config) (hc : c.validate = .ok ()) : 0 < c.aliasBudget := by
  unfold validate at hc
  split at hc
  · cases hc
  split at hc
  · cases hc
  · omega

/-! ## steps on all partitions -/

namespace Partitioning

theorem completes_mapM {f : Partition → Refine Partition} (hf : ∀ p, Completes (f p))
    (m : Partitioning) : Completes (m.mapM f) :=
  (Completes.mapM hf m.parts).bind fun _ => .pure _

theorem completes_seedVisible {ruledOut : AccessId → Point → PartId → Refine Bool}
    (hruled : ∀ a q p, Completes (ruledOut a q p)) (m : Partitioning) (s : Subject)
    (ops : Operations) (par : Parallelism) (x : Escape) :
    Completes (m.seedVisible s ops par x ruledOut) := by
  refine completes_mapM (fun p => .bind (.foldlM (fun found aq => ?_) _ _) fun _ => .pure _) _
  refine (hruled aq.1 aq.2 p.id).bind fun gone => ?_
  split <;> exact .pure _

theorem completes_filterPairs {apart : PartId → AccessId → AccessId → Refine Bool}
    (hapart : ∀ p a b, Completes (apart p a b)) (m : Partitioning) :
    Completes (m.filterPairs apart) := by
  refine completes_mapM (fun p => ?_) m
  split
  · exact .pure _
  · refine .bind (.bind (.filterM (fun ab => ?_) _) fun _ => .pure _) fun _ => .pure _
    exact (hapart p.id ab.1 ab.2).bind fun _ => .pure _

end Partitioning

/-! ## the phases -/

namespace Screening

/-- The alias refinement, if there is one, has steps to take. -/
def Answerable (x : Screening) : Prop := ∀ r ∈ x.aliases, 0 < r.solver.budget

variable {x : Screening} {s : Subject}

theorem succeeds_refineParts (hx : x.Answerable) {step : Refine Partitioning}
    (hstep : Completes step) : Succeeds Answerable (x.refineParts step) := by
  unfold refineParts
  split
  · exact .ok hx
  · next r hr =>
    obtain ⟨parts, t, hrun, ht⟩ := hstep { r with solver.log := x.log } (hx r hr)
    rw [hrun]
    refine .ok ?_
    rintro _ ⟨⟩
    exact ht

/-- Collecting the risky pairs succeeds. -/
theorem succeeds_start (hp : s.program.WellFormed) (hfit : s.program.RecurrencesFit)
    (hprojects : ∀ par, AliasScope.ProjectsAll ⟨s, par⟩) (hbudget : 0 < s.config.aliasBudget) :
    Succeeds Answerable (start s) := by
  unfold start
  refine (Parallelism.succeeds_analyze hp hfit _).bind fun par _ => ?_
  dsimp only
  have hstart : ∀ r ∈ AliasRefinement.start s.config (par.note s s.config.emptyLog),
      0 < r.solver.budget := by
    intro r hr
    unfold AliasRefinement.start at hr
    split at hr
    · cases hr
    · cases hr
      exact hbudget
  split
  · exact .ok hstart
  · refine Succeeds.bind (P := Answerable) (succeeds_refineParts ?_ ?_) fun y hy => .ok hy
    · exact hstart
    · refine Partitioning.completes_seedVisible (fun a q p => ?_) _ _ _ _ _
      exact AliasRefinement.completes_ruledOut (hprojects _) _ _ _

/-- Taking away the pairs whose pointers never meet succeeds. -/
theorem succeeds_filterAliases (hprojects : ∀ par, AliasScope.ProjectsAll ⟨s, par⟩)
    (hx : x.Answerable) : Succeeds (fun _ => True) (x.filterAliases s) := by
  unfold filterAliases
  refine (succeeds_refineParts hx (Partitioning.completes_filterPairs (fun _ a b => ?_) _)).bind
    fun y _ => ?_
  · exact AliasRefinement.completes_apart (hprojects _) _ _
  · split <;> exact .ok trivial

end Screening

/-! ## whole detections -/

namespace Subject

variable {p : Program} {c : Config} {s : Subject}

/-- Preparing a program whose offsets fit succeeds. -/
theorem exists_prepare (hp : p.Finished) (hc : c.validate = .ok ()) (hfit : p.OffsetsFit) :
    ∃ s, prepare p c = .ok s := by
  obtain ⟨t, ht, -⟩ := PointsTo.succeeds_analyze hp hfit c.variableIndex
  unfold prepare
  rw [hc, ht]
  exact ⟨_, rfl⟩

theorem Prepared.projectsAll (h : s.Prepared p c) (hp : p.Finished) (hfit : p.OffsetsFit)
    (par : Parallelism) : AliasScope.ProjectsAll ⟨s, par⟩ := by
  intro n e k he hk o
  have hedge := ((PointsTo.graphInv hp h.pointers).mem_inEdges.1 he).1
  exact PointsTo.exists_project_of_mem_offsets hp h.pointers hfit
    (PointsTo.mem_offsets_of_edge hp h.pointers hedge hk) o

end Subject

namespace Detection

/-- **A detection comes to its end** in every program that the builder accepts, with all settings
that are valid, if the offsets and the recurrences of the program fit into their words. -/
theorem exists_run (p : Program) (c : Config) (hp : p.Finished) (hc : c.validate = .ok ())
    (hoffsets : p.OffsetsFit) (hrecurrences : p.RecurrencesFit) :
    ∃ s d, Subject.prepare p c = .ok s ∧ Detection.run s = .ok d := by
  obtain ⟨s, hs⟩ := Subject.exists_prepare hp hc hoffsets
  have hprep := Subject.prepared hs
  have hprojects := hprep.projectsAll hp hoffsets
  have hbudget : 0 < s.config.aliasBudget := by
    rw [hprep.config]
    exact c.aliasBudget_pos hc
  obtain ⟨d, hd, -⟩ : Succeeds (fun _ => True) (run s) := by
    unfold run
    refine (Screening.succeeds_start (hprep.program ▸ hp.wellFormed) (hprep.program ▸ hrecurrences)
      hprojects hbudget).bind fun x hx => ?_
    refine (Screening.succeeds_filterAliases hprojects (x := (x.filterSync s _).filterFurther s)
      hx).bind fun y _ => .ok trivial
  exact ⟨s, d, hs, hd⟩

/-- A loop starts threads at every third place of an array of thread ids and hands each a field of
an aggregate, of which the thread writes the next. -/
def stridedSpawns : List Command :=
  [.global "t" 16, .global "g" 3, .declare "main" 0, .declare "worker" 1,
    .declare "thread_create" 3, .const 0, .const 1, .const 3, .const 4,
    .body 1, .append 1 0 (.project 4 (some 1) none), .append 1 0 (.store 13 10),
    .append 1 0 (.ret none),
    .body 0, .block 0, .block 0, .block 0, .append 0 1 (.project 1 (some 1) none),
    .append 0 1 (.jump 2),
    .append 0 2 (.phi []), .append 0 2 (.compare .slt 15 12), .append 0 2 (.branch 16 3 4),
    .append 0 3 (.arith .mul 15 11), .append 0 3 (.project 0 none (some 17)),
    .append 0 3 (.call (.direct 2) [18, 3, 14]), .append 0 3 (.arith .add 15 10),
    .append 0 3 (.jump 2), .incoming 15 9 1, .incoming 15 20 3, .append 0 4 (.ret none)]

/-- The offsets and the strided index fit, so the detection comes to its end. -/
theorem exists_run_stridedSpawns :
    (Builder.ofScript stridedSpawns).offsets = [1, 1] ∧
    Induction.magnitude (Builder.ofScript stridedSpawns) 17 = 3 ∧
    ∃ s d, Subject.prepare (Builder.ofScript stridedSpawns) {} = .ok s ∧
      Detection.run s = .ok d := by
  refine ⟨by decide +kernel, by decide +kernel, ?_⟩
  exact exists_run _ _ (Builder.finished_ofScript (by decide +kernel)) rfl (by decide +kernel)
    (by decide +kernel)

/-- A field of a field, where the two offsets together are past the word. -/
def fieldPastWord : List Command :=
  [.global "g" 2, .declare "main" 0, .body 0, .append 0 0 (.project 0 (some 1) none),
    .append 0 0 (.project 2 (some 4294967295) none), .append 0 0 (.ret none)]

/-- Not every accepted program has an outcome: the points-to analysis is broken off by an offset
that leaves its word. -/
theorem not_forall_exists_run : ¬∀ (p : Program) (c : Config), p.Finished → c.validate = .ok () →
    ∃ s d, Subject.prepare p c = .ok s ∧ Detection.run s = .ok d := by
  intro hall
  have hbroken : (Subject.prepare (Builder.ofScript fieldPastWord) {}).isOk = false := by
    decide +kernel
  obtain ⟨s, -, hs, -⟩ := hall (Builder.ofScript fieldPastWord) {}
    (Builder.finished_ofScript (by decide +kernel)) rfl
  rw [hs] at hbroken
  cases hbroken

/-- A loop starts threads at places of an array whose index is its counter multiplied twice by half
a word. -/
def scaledPastWord : List Command :=
  [.global "t" 0, .declare "main" 0, .declare "worker" 1, .declare "thread_create" 3,
    .const 0, .const 1, .const 4294967296, .body 1, .append 1 0 (.ret none),
    .body 0, .block 0, .block 0, .block 0, .append 0 1 (.jump 2),
    .append 0 2 (.phi []), .append 0 2 (.compare .slt 11 10), .append 0 2 (.branch 12 3 4),
    .append 0 3 (.arith .mul 11 10), .append 0 3 (.arith .mul 13 10),
    .append 0 3 (.project 0 none (some 14)), .append 0 3 (.call (.direct 2) [15, 2, 8]),
    .append 0 3 (.arith .add 11 9), .append 0 3 (.jump 2), .incoming 11 8 1, .incoming 11 17 3,
    .append 0 4 (.ret none)]

/-- Offsets that fit are not enough: the search for the recurrence of a thread id is broken off by
a product that leaves its word. -/
theorem not_forall_exists_run_of_offsetsFit : ¬∀ (p : Program) (c : Config), p.Finished →
    c.validate = .ok () → p.OffsetsFit →
    ∃ s d, Subject.prepare p c = .ok s ∧ Detection.run s = .ok d := by
  intro hall
  have hbroken : (Subject.prepare (Builder.ofScript scaledPastWord) {}).toOption.all
      (fun s => !(Detection.run s).isOk) = true := by
    decide +kernel
  obtain ⟨s, d, hs, hd⟩ := hall (Builder.ofScript scaledPastWord) {}
    (Builder.finished_ofScript (by decide +kernel)) rfl (by decide +kernel)
  rw [hs] at hbroken
  simp [Except.toOption, Except.isOk, Except.toBool, hd] at hbroken

end Detection

end DataRace
