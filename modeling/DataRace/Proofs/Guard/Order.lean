import DataRace.Guard.Exclusion
import DataRace.Proofs.Guard.Entry
import DataRace.Proofs.Program.Session

/-!
# DataRace.Proofs.Guard.Order

When guards do not depend on the order of questions.

A function counts as unguarded while its guards are being found, and the table
keeps what was found meanwhile.  This matters only for functions that call each
other in a circle.  A function that calls itself is no such case: the block of
the call has the guards that all calls share as guards of its own.

* `GuardTable.guards_asked` — the guards of a block are the same after any
  questions, if no two different functions that lead to its function lead to each
  other;
* `GuardTable.not_forall_guards_asked` — two functions that call each other, one
  of them under a condition.
-/

namespace DataRace

open Relation

namespace GuardTable

variable {φ ε : Type} [DecidableEq φ]

/-- **The guards of a block do not depend on earlier questions** where no two different functions
that lead to its function lead to each other. -/
theorem guards_asked {p : Program} {c : Config} {s : Subject} (hs : Subject.prepare p c = .ok s)
    (read : Guard.Reader φ ε) (b : BlockId)
    (hcycle : ∀ f g, s.LeadsTo f (s.program.block b).func → s.LeadsTo f g → s.LeadsTo g f → g = f)
    (bs : List BlockId) : ((guards s read b).run (asked s read bs)).1 =
      ((guards s read b).run { inherits := true }).1 := by
  -- the table stays right for the functions that lead to the block
  let U : Set FuncId := {f | s.LeadsTo f (s.program.block b).func}
  obtain ⟨rank, hl⟩ := (Subject.prepared hs).exists_layeredOn (U := U)
    (fun f hf g hg => hf.head hg) fun f hf g => hcycle f g hf
  have hright (t : GuardTable φ ε) (ht : Sound s read U s.program.funcs.size ∅ t) :
      ((guards s read b).run t).1 = guardsIn s read b :=
    (ensures_guards_of_layeredOn hl b t ht).1 .refl
  have hnew := sound_new s read U
  have hasked := asked_induction hnew (fun b t ht => (ensures_guards_of_layeredOn hl b t ht).2) bs
  rw [hright _ hasked, hright _ hnew]

/-- Two functions that call each other, one of them under a condition; `main` calls that one and a
third one under the same condition. -/
def crossCalls : List Session.Call :=
  [.global "x" 0 none, .declare "f" 0, .declare "g" 0, .declare "h" 0, .declare "main" 0, .const 0,
    .body 0, .append (.call (.direct 1) []), .append (.ret none),
    .body 1, .newBlock, .newBlock, .append (.load 0), .append (.compare .eq 7 5),
    .append (.branch 8 2 3), .positionAt 2, .append (.call (.direct 0) []), .append (.jump 3),
    .positionAt 3, .append (.ret none),
    .body 2, .append (.ret none),
    .body 3, .newBlock, .newBlock, .append (.load 0), .append (.compare .eq 10 5),
    .append (.branch 11 6 7), .positionAt 6, .append (.call (.direct 1) []),
    .append (.call (.direct 2) []), .append (.jump 7), .positionAt 7, .append (.ret none)]

/-- The third function is guarded whatever was asked of the two. -/
theorem guards_asked_crossCalls : ∃ p s, Session.build crossCalls = .ok p ∧
    Subject.prepare p {} = .ok s ∧ s.LeadsTo 0 1 ∧ s.LeadsTo 1 0 ∧
    (∀ f g, s.LeadsTo f (s.program.block 4).func → s.LeadsTo f g → s.LeadsTo g f → g = f) ∧
    ((guards s (GlobalTest.read p) 4).run (asked s (GlobalTest.read p) [0, 1])).1 =
      ((guards s (GlobalTest.read p) 4).run { inherits := true }).1 ∧
    ((guards s (GlobalTest.read p) 4).run { inherits := true }).1.map (·.fact) = [⟨0, 0, .eq⟩] := by
  obtain ⟨p, h, hs⟩ := exists_of_any_toOption (x := Session.build crossCalls)
    (P := fun p => (Subject.prepare p {}).toOption.any fun s : Subject => decide (
      (5 ∈ s.callSites 0 ∧ (s.program.block (s.program.blockOf 5)).func = 1) ∧
      (0 ∈ s.callSites 1 ∧ (s.program.block (s.program.blockOf 0)).func = 0) ∧
      (s.program.block 4).func = 2 ∧
      (∀ e ∈ s.calls.edges, e.callee ≠ 3 ∧
        (e.callee = 2 → (s.program.block (s.program.blockOf e.site)).func = 3)) ∧
      ((guards s (GlobalTest.read p) 4).run { inherits := true }).1.map (·.fact) = [⟨0, 0, .eq⟩]))
    (by decide +kernel)
  obtain ⟨s, hs, hfacts⟩ := exists_of_any_toOption hs
  rw [decide_eq_true_eq] at hfacts
  obtain ⟨⟨hi, hfunc⟩, ⟨hi', hfunc'⟩, hthird, hedges, hguards⟩ := hfacts
  have hcaller {g f : FuncId} (hcall : s.Calls g f) : f ≠ 3 ∧ (f = 2 → g = 3) := by
    obtain ⟨i, hi, rfl⟩ := hcall
    obtain ⟨e, he, rfl, -, rfl, -⟩ := Subject.mem_callSites_iff.1 hi
    exact hedges e he
  have htop {g : FuncId} (h : s.LeadsTo g 3) : g = 3 := by
    rcases h.cases_tail with heq | ⟨b, -, hcall⟩
    · exact heq.symm
    · exact absurd rfl (hcaller hcall).1
  have hcycle (f g : FuncId) (hf : s.LeadsTo f (s.program.block 4).func) (hfg : s.LeadsTo f g)
      (hgf : s.LeadsTo g f) : g = f := by
    have hleads {g : FuncId} (h : s.LeadsTo g 2) : g = 2 ∨ g = 3 := by
      rcases h.cases_tail with heq | ⟨b, hgb, hcall⟩
      · exact .inl heq.symm
      · obtain rfl := (hcaller hcall).2 rfl
        exact .inr (htop hgb)
    rw [hthird] at hf
    rcases hleads hf with rfl | rfl
    · rcases hleads hgf with rfl | rfl
      · rfl
      · exact (htop hfg).symm
    · exact htop hgf
  exact ⟨p, s, h, hs, .single ⟨0, hi', hfunc'⟩, .single ⟨5, hi, hfunc⟩, hcycle,
    guards_asked hs (GlobalTest.read p) 4 hcycle [0, 1], hguards⟩

/-- A question about the first function leaves the second one unguarded. -/
theorem not_forall_guards_asked : ¬∀ p c s, (∃ calls, Session.build calls = .ok p) →
    Subject.prepare p c = .ok s → ∀ (b : BlockId) (bs : List BlockId) (fact : GlobalTest),
      (∃ g ∈ ((guards s (GlobalTest.read p) b).run (asked s (GlobalTest.read p) bs)).1,
        g.fact = fact) ↔ ∃ g ∈ ((guards s (GlobalTest.read p) b).run { inherits := true }).1,
        g.fact = fact := by
  intro hall
  obtain ⟨p, h, hs⟩ := exists_of_any_toOption (x := Session.build crossCalls)
    (P := fun p => (Subject.prepare p {}).toOption.any fun s : Subject => decide (
      ((guards s (GlobalTest.read p) 1).run (asked s (GlobalTest.read p) [0])).1.isEmpty = true ∧
      ((guards s (GlobalTest.read p) 1).run { inherits := true }).1.isEmpty = false))
    (by decide +kernel)
  obtain ⟨s, hs, hfacts⟩ := exists_of_any_toOption hs
  rw [decide_eq_true_eq, List.isEmpty_iff, List.isEmpty_eq_false_iff] at hfacts
  obtain ⟨hnone, hsome⟩ := hfacts
  obtain ⟨g, hg⟩ := List.exists_mem_of_ne_nil _ hsome
  obtain ⟨g', hg', -⟩ := (hall p {} s ⟨crossCalls, h⟩ hs 1 [0] g.fact).2 ⟨g, hg, rfl⟩
  rw [hnone] at hg'
  cases hg'

end GuardTable

end DataRace
