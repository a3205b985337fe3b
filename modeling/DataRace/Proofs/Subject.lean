import DataRace.Proofs.Flow.Search
import DataRace.Proofs.PointsTo.LeastSolution
import DataRace.Subject

/-!
# DataRace.Proofs.Subject

What a prepared program consists of, and the case of a program with one body.

* `Subject.Prepared` names the parts that preparing a program derives;
* `Program.SingleBody` are the programs where only `main` is defined.
-/

namespace DataRace

open Std

/-- The parts of a prepared program. -/
structure Subject.Prepared (p : Program) (c : Config) (s : Subject) : Prop where
  program : s.program = p
  config : s.config = c
  pointers : PointsTo.analyze p c.variableIndex = .ok s.pointers
  calls : s.calls = .ofProgram p s.pointers
  components : s.components = .ofGraph p s.calls
  recursive : s.recursive = s.components.recursiveFunctions
  flows : s.flows = (p.funcIds.map (FlowFacts.ofFunction p)).toArray

namespace Subject

variable {p : Program} {c : Config} {s : Subject}

theorem prepared (h : prepare p c = .ok s) : Prepared p c s := by
  unfold prepare at h
  cases hv : c.validate with
  | error e => simp [hv, bind, Except.bind] at h
  | ok u =>
    cases ht : PointsTo.analyze p c.variableIndex with
    | error e => simp [hv, ht, bind, Except.bind] at h
    | ok t =>
      simp only [hv, ht, bind, Except.bind, pure, Except.pure, Except.ok.injEq] at h
      subst h
      exact ⟨rfl, rfl, ht, rfl, rfl, rfl, rfl⟩

theorem Prepared.flow (h : Prepared p c s) {f : FuncId} (hf : f < p.funcs.size) :
    s.flow f = .ofFunction p f := by
  rw [Subject.flow, h.flows]
  simp [Program.funcIds, Array.getD_eq_getD_getElem?, hf]

end Subject

/-! ## call edges -/

namespace CallGraph

variable {p : Program} {t : PointsTo} {e : CallEdge}

/-- An edge leads from a call to a function with a body that it may call or start. -/
theorem mem_edges_iff : e ∈ (ofProgram p t).edges ↔ e.site < p.insts.size ∧ p.isCall e.site = true ∧
    e.caller = p.funcOf e.site ∧ (p.func e.callee).isDeclaration = false ∧
    (e.fork = false ∧ e.callee ∈ t.callees e.site ∨
      e.fork = true ∧ p.isThreadStart e.site = true ∧ e.callee ∈ t.spawnees e.site) := by
  obtain ⟨site, caller, callee, fork⟩ := e
  simp only [ofProgram, List.mem_flatMap, Program.instIds, List.mem_range, siteEdges]
  constructor
  · rintro ⟨i, hi, he⟩
    split at he
    · next hcall =>
      rcases List.mem_append.1 he with he | he
      · obtain ⟨f, hf, heq⟩ := List.mem_map.1 he
        cases heq
        obtain ⟨hf, hd⟩ := List.mem_filter.1 hf
        exact ⟨hi, hcall, rfl, by simpa using hd, .inl ⟨rfl, hf⟩⟩
      · split at he
        · next hstart =>
          obtain ⟨f, hf, heq⟩ := List.mem_map.1 he
          cases heq
          obtain ⟨hf, hd⟩ := List.mem_filter.1 hf
          exact ⟨hi, hcall, rfl, by simpa using hd, .inr ⟨rfl, hstart, hf⟩⟩
        · cases he
    · cases he
  · rintro ⟨hi, hcall, hcaller, hd, h⟩
    refine ⟨site, hi, ?_⟩
    simp only [hcall, if_true, List.mem_append, List.mem_map, List.mem_filter]
    rcases h with ⟨hfork, hf⟩ | ⟨hfork, hstart, hf⟩
    · exact .inl ⟨callee, ⟨hf, by simpa using hd⟩, by simp_all⟩
    · refine .inr ?_
      simp only [hstart, if_true, List.mem_map, List.mem_filter]
      exact ⟨callee, ⟨hf, by simpa using hd⟩, by simp_all⟩

end CallGraph

/-! ## programs with one body -/

/-- Only `main` is defined. -/
structure Program.SingleBody (p : Program) (main : FuncId) : Prop where
  named : p.main? = some main
  defined_iff : ∀ {f}, (p.func f).isDeclaration = false ↔ f = main

namespace Program.SingleBody

variable {p : Program} {main : FuncId}

theorem of_table (hnamed : p.main? = some main) (hmain : main < p.funcs.size)
    (h : ∀ f < p.funcs.size, (p.func f).isDeclaration = false ↔ f = main) : p.SingleBody main := by
  refine ⟨hnamed, fun {f} => ?_⟩
  by_cases hf : f < p.funcs.size
  · exact h f hf
  · have hne : f ≠ main := fun heq => hf (heq ▸ hmain)
    rw [Program.func_of_size_le (Nat.le_of_not_lt hf)]
    exact ⟨fun hd => (by cases hd), fun heq => absurd heq hne⟩

variable (hb : p.SingleBody main)

include hb

theorem main_lt : main < p.funcs.size := by
  by_contra hle
  have hdef := hb.defined_iff.2 rfl
  rw [Program.func_of_size_le (Nat.le_of_not_lt hle)] at hdef
  cases hdef

end Program.SingleBody

namespace Subject

variable {p : Program} {c : Config} {s : Subject} {main : FuncId}

theorem Prepared.isAnalyzable_main (h : Prepared p c s) (hb : p.SingleBody main) :
    s.isAnalyzable main = true := by
  have hdef := hb.defined_iff.2 rfl
  have hlive : main ∈ s.calls.live := by
    rw [h.calls]
    simp only [CallGraph.ofProgram, CallGraph.liveFunctions, hb.named]
    rw [IdSet.mem_filter, hdef]
    exact ⟨mem_reachable_iff.2 ⟨main, List.mem_singleton_self main, hb.main_lt, .refl⟩, rfl⟩
  rw [isAnalyzable, h.program, hdef, CallGraph.isLive, TreeSet.contains_iff_mem.2 hlive]
  rfl

end Subject

end DataRace
