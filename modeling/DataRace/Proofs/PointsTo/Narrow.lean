import DataRace.Proofs.PointsTo.LeastSolution

/-!
# DataRace.Proofs.PointsTo.Narrow

Values that no instruction computes.

The address of a global, the address of a function and a parameter are no
results of instructions.  What flows into such a value is given by the program or
passed by calls and thread starts, so in the least solution the value points
nowhere else: narrowing it to what it is given leaves all constraints met.

* `Closed.narrow` — a value can be narrowed to what it is given;
* `mem_of_global_iff` — the address of a global points to the global alone.
-/

namespace DataRace

open PointsTo

namespace Assignment

/-- The assignment with one value pointing to some objects only. -/
def narrow (A : Assignment) (v : ValueId) (S : Set ObjId) : Assignment :=
  { A with of := fun x => if x = v then S else A.of x }

variable {p : Program} {variableIndex : Bool} {A : Assignment} {S : Set ObjId} {v : Nat}

theorem of_narrow_of_ne {x : Nat} (h : x ≠ v) : (A.narrow v S).of x = A.of x := if_neg h

theorem of_narrow_self : (A.narrow v S).of v = S := if_pos rfl

/-- A value that is no result can be narrowed to what the program gives it and what is passed for
it by other values. -/
theorem Closed.narrow (hA : A.Closed p variableIndex) (hp : p.WellFormed) (hS : S ⊆ A.of v)
    (hinst : ∀ {i}, (p.value v).definition ≠ .inst i)
    (hglobal : ∀ {g}, (p.value v).definition = .global g → (Solver.objects p).globalObj g ∈ S)
    (hfunction : ∀ {g}, (p.value v).definition = .function g → (Solver.objects p).funcObj g ∈ S)
    (hcall : ∀ {i g a}, a ≠ v → g ∈ A.callees i → (p.func g).isDeclaration = false →
      (a, v) ∈ (p.callArgs i).zip (p.func g).params → A.of a ⊆ S)
    (hstart : ∀ {i g a qs}, a ≠ v → g ∈ A.spawnees i → (p.func g).isDeclaration = false →
      p.routineArg i = some a → (p.func g).params = v :: qs → A.of a ⊆ S) :
    (A.narrow v S).Closed p variableIndex := by
  have hle (x : Nat) : (A.narrow v S).of x ⊆ A.of x := by
    by_cases hx : x = v
    · rw [hx, of_narrow_self]
      exact hS
    · rw [of_narrow_of_ne hx]
  have hresult {i r : Nat} (hr : p.result i = some r) : (A.narrow v S).of r = A.of r :=
    of_narrow_of_ne fun heq => hinst (heq ▸ (hp.result_iff.1 hr).2)
  have hgiven {x : Nat} {o : ObjId} (ho : o ∈ A.of x) (hin : x = v → o ∈ S) :
      o ∈ (A.narrow v S).of x := by
    by_cases hx : x = v
    · rw [hx, of_narrow_self]
      exact hin hx
    · rwa [of_narrow_of_ne hx]
  -- What flows into the value comes from the value itself or from another one.
  have hflow {a q : Nat} (hother : q ≠ v → A.of a ⊆ A.of q) (hself : q = v → a ≠ v → A.of a ⊆ S) :
      (A.narrow v S).of a ⊆ (A.narrow v S).of q := by
    by_cases hq : q = v
    · by_cases ha : a = v
      · rw [hq, ha]
      · rw [hq, of_narrow_self, of_narrow_of_ne ha]
        exact hself hq ha
    · rw [of_narrow_of_ne hq]
      exact (hle a).trans (hother hq)
  constructor
  case global =>
    exact fun {g} hg => hgiven (hA.global hg) fun heq => hglobal (heq ▸ hp.global_def hg)
  case function =>
    exact fun {g} hg => hgiven (hA.function hg) fun heq => hfunction (hp.addr_iff.1 ⟨hg, heq⟩).2
  case alloc => exact fun hop hr => hresult hr ▸ hA.alloc hop hr
  case cast => exact fun {i src r} hop hr => hresult hr ▸ (hle src).trans (hA.cast hop hr)
  case phi => exact fun {i ins r w b} hop hr hw => hresult hr ▸ (hle w).trans (hA.phi hop hr hw)
  case load => exact fun {i ptr r o} hop hr ho => hresult hr ▸ hA.load hop hr (hle ptr ho)
  case store => exact fun {i ptr val o} hop ho => (hle val).trans (hA.store hop (hle ptr ho))
  case field =>
    exact fun {i base n idx r o o'} hop hr ho hn => hresult hr ▸ hA.field hop hr (hle base ho) hn
  case index =>
    exact fun {i base idx r o o'} hop hr ho ho' => hresult hr ▸ hA.index hop hr (hle base ho) ho'
  case direct => exact hA.direct
  case indirect => exact fun {i w args o g} hop ho => hA.indirect hop (hle w ho)
  case argument =>
    intro i g a q hg hd hq
    exact hflow (fun _ => hA.argument hg hd hq) fun heq hne => hcall hne hg hd (heq ▸ hq)
  case returned =>
    exact fun {i g w r} hg hd hw hr => hresult hr ▸ (hle w).trans (hA.returned hg hd hw hr)
  case unrecognised => exact fun hg hd hl hr => hresult hr ▸ hA.unrecognised hg hd hl hr
  case start => exact fun {i w o g} hi hw ho => hA.start hi hw (hle w ho)
  case startArgument =>
    intro i g a q qs hg hd ha hq
    exact hflow (fun _ => hA.startArgument hg hd ha hq) fun heq hne =>
      hstart hne hg hd ha (heq ▸ hq)
  case join =>
    intro j i ptr r tid hj hi hptr hr htid halias
    obtain ⟨hjoined, hreturn⟩ := hA.join hj hi hptr hr htid (halias.mono (hle ptr) (hle tid))
    exact ⟨hjoined, fun {g w} hg hw => hresult hr ▸ (hle w).trans (hreturn hg hw)⟩

end Assignment

namespace PointsTo

variable {p : Program} {variableIndex : Bool} {t : PointsTo} {g o : Nat}

/-- The address of a global points to the object of the global and to nothing else. -/
theorem mem_of_global_iff (hp : p.Finished) (h : analyze p variableIndex = .ok t)
    (hg : g < p.globals.size) :
    o ∈ t.of (p.global g).addr ↔ o = (Solver.objects p).globalObj g := by
  have hwf := hp.wellFormed
  have hA := analyze_closed hp h
  have hdef := hwf.global_def hg
  have hparam {f : Nat} : (p.global g).addr ∉ (p.func f).params := by
    intro hmem
    obtain ⟨k, hk⟩ := hwf.param_def hmem
    rw [hdef] at hk
    cases hk
  have hnarrow := hA.narrow (v := (p.global g).addr) (S := {(Solver.objects p).globalObj g}) hwf
    (Set.singleton_subset_iff.2 (hA.global hg)) (by simp [hdef]) (by simp [hdef]) (by simp [hdef])
    (fun _ _ _ hzip => absurd (List.of_mem_zip hzip).2 hparam)
    (fun _ _ _ _ hqs => absurd (hqs ▸ List.mem_cons_self) hparam)
  constructor
  · intro ho
    have hmem := (analyze_within hp h hnarrow).of (hwf.global_lt hg) ho
    rwa [Assignment.of_narrow_self] at hmem
  · rintro rfl
    exact hA.global hg

end PointsTo

end DataRace
