import DataRace.Program.Value
import DataRace.Proofs.PointsTo.LeastSolution

/-!
# DataRace.Proofs.PointsTo.Casts

A cast points where its operand points.

That it points there at least is a constraint.  That it points nowhere else is
seen by lowering the cast to its operand in the least solution: nothing but
the cast flows into its result, so the lowered assignment still meets all
constraints (`Closed.lower`).
-/

namespace DataRace

open PointsTo

namespace Assignment

/-- The assignment with the result of a cast pointing where its operand points; a cast calls
nothing. -/
def lower (A : Assignment) (i : InstId) (v src : ValueId) : Assignment :=
  { A with
    of := fun x => if x = v then A.of src else A.of x
    callees := fun k => {f | f ∈ A.callees k ∧ k ≠ i} }

variable {p : Program} {variableIndex : Bool} {A : Assignment} {i v src : Nat}

theorem of_lower_of_ne {x : Nat} (h : x ≠ v) : (A.lower i v src).of x = A.of x := if_neg h

theorem of_lower_self : (A.lower i v src).of v = A.of src := if_pos rfl

/-- Another instruction has another result. -/
theorem result_ne_of_ne (hp : p.WellFormed) (hr : p.result i = some v) {k r : Nat} (hne : k ≠ i)
    (hk : p.result k = some r) : r ≠ v := by
  rintro rfl
  have hi := (hp.result_iff.1 hr).2
  rw [(hp.result_iff.1 hk).2] at hi
  exact hne (Definition.inst.inj hi)

theorem param_ne_of_result (hp : p.WellFormed) (hr : p.result i = some v) {f q : Nat}
    (hq : q ∈ (p.func f).params) : q ≠ v := by
  rintro rfl
  obtain ⟨k, hk⟩ := hp.param_def hq
  rw [(hp.result_iff.1 hr).2] at hk
  cases hk

/-- A cast can be lowered to its operand. -/
theorem Closed.lower (hA : A.Closed p variableIndex) (hp : p.WellFormed) (hop : p.op i = .cast src)
    (hr : p.result i = some v) : (A.lower i v src).Closed p variableIndex := by
  have hle (x : Nat) : (A.lower i v src).of x ⊆ A.of x := by
    by_cases hx : x = v
    · rw [hx, of_lower_self]
      exact hA.cast hop hr
    · rw [of_lower_of_ne hx]
  have hother {k r : Nat} (hk : k ≠ i) (hres : p.result k = some r) :
      (A.lower i v src).of r = A.of r := of_lower_of_ne (result_ne_of_ne hp hr hk hres)
  have hresult {k r : Nat} (hk : p.op k ≠ .cast src) (hres : p.result k = some r) :
      (A.lower i v src).of r = A.of r := hother (k := k) (fun heq => hk (heq ▸ hop)) hres
  constructor
  case global =>
    intro g hg
    rw [of_lower_of_ne]
    · exact hA.global hg
    · intro heq
      have hdef := (hp.result_iff.1 hr).2
      rw [← heq, hp.global_def hg] at hdef
      cases hdef
  case function =>
    intro f hf
    rw [of_lower_of_ne]
    · exact hA.function hf
    · intro heq
      have hdef := (hp.result_iff.1 hr).2
      rw [← heq, (hp.addr_iff.1 ⟨hf, rfl⟩).2] at hdef
      cases hdef
  case alloc =>
    intro k heap fields r hk hres
    rw [hresult (by simp [hk]) hres]
    exact hA.alloc hk hres
  case cast =>
    intro k src' r hk hres
    by_cases hrv : r = v
    · subst hrv
      have hik := (hp.result_iff.1 hr).2
      rw [(hp.result_iff.1 hres).2] at hik
      cases hik
      rw [hop] at hk
      cases hk
      rw [of_lower_self]
      exact hle src
    · rw [of_lower_of_ne hrv]
      exact (hle src').trans (hA.cast hk hres)
  case phi =>
    intro k ins r w b hk hres hw
    rw [hresult (by simp [hk]) hres]
    exact (hle w).trans (hA.phi hk hres hw)
  case load =>
    intro k ptr r o hk hres ho
    rw [hresult (by simp [hk]) hres]
    exact hA.load hk hres (hle ptr ho)
  case store =>
    intro k ptr val o hk ho
    exact (hle val).trans (hA.store hk (hle ptr ho))
  case field =>
    intro k base n idx r o o' hk hres ho hn
    rw [hresult (by simp [hk]) hres]
    exact hA.field hk hres (hle base ho) hn
  case index =>
    intro k base idx r o o' hk hres ho ho'
    rw [hresult (by simp [hk]) hres]
    exact hA.index hk hres (hle base ho) ho'
  case direct =>
    intro k f hf
    refine ⟨hA.direct hf, ?_⟩
    rintro rfl
    rw [Program.directCallee, hop] at hf
    cases hf
  case indirect =>
    intro k w args o f hk ho hf
    refine ⟨hA.indirect hk (hle w ho) hf, ?_⟩
    rintro rfl
    rw [hop] at hk
    cases hk
  case argument =>
    intro k f a q hf hd hq
    rw [of_lower_of_ne (param_ne_of_result hp hr (List.of_mem_zip hq).2)]
    exact (hle a).trans (hA.argument hf.1 hd hq)
  case returned =>
    intro k f w r hf hd hw hres
    rw [hother hf.2 hres]
    exact (hle w).trans (hA.returned hf.1 hd hw hres)
  case unrecognised =>
    intro k f r hf hd hl hres
    rw [hother hf.2 hres]
    exact hA.unrecognised hf.1 hd hl hres
  case start =>
    intro k w o f hk hw ho hf
    exact hA.start hk hw (hle w ho) hf
  case startArgument =>
    intro k f a q qs hf hd ha hq
    rw [of_lower_of_ne (x := q) (param_ne_of_result hp hr (f := f) (hq ▸ List.mem_cons_self))]
    exact (hle a).trans (hA.startArgument hf hd ha hq)
  case join =>
    intro j k ptr r tid hj hk hptr hres htid halias
    have hcall : p.op j ≠ .cast src := by
      intro hcast
      simp [Program.isJoin, Program.libraryCall?, Program.callEntry?, Program.directCallee, hcast]
        at hj
    obtain ⟨hjoined, hflow⟩ := hA.join hj hk hptr hres htid (halias.mono (hle ptr) (hle tid))
    refine ⟨hjoined, fun {f w} hf hw => ?_⟩
    rw [hresult hcall hres]
    exact (hle w).trans (hflow hf hw)

end Assignment

namespace PointsTo

variable {p : Program} {variableIndex : Bool} {t : PointsTo}

/-- The result of a cast points where its operand points. -/
theorem mem_of_cast_iff (hp : p.Finished) (h : analyze p variableIndex = .ok t) {i v src o : Nat}
    (hop : p.op i = .cast src) (hr : p.result i = some v) : o ∈ t.of v ↔ o ∈ t.of src := by
  have hA := analyze_closed hp h
  have hwithin := analyze_within hp h (hA.lower hp.wellFormed hop hr)
  constructor
  · intro ho
    have hmem := hwithin.of (hp.wellFormed.result_iff.1 hr).1 ho
    rwa [Assignment.of_lower_self] at hmem
  · exact fun ho => hA.cast hop hr ho

theorem exists_cast (hp : p.WellFormed) {v src : Nat} (hv : v < p.values.size)
    (h : p.castSource? v = some src) : ∃ i, p.op i = .cast src ∧ p.result i = some v := by
  unfold Program.castSource? Program.defOp Program.defInst at h
  cases hdef : (p.value v).definition with
  | inst i =>
    refine ⟨i, ?_, hp.result_iff.2 ⟨hv, hdef⟩⟩
    rw [hdef, Option.map_some] at h
    split at h
    · next heq => exact Option.some.inj h ▸ Option.some.inj heq
    · cases h
  | _ => simp [hdef] at h

/-- Casts around a pointer do not change where it points. -/
theorem mem_of_stripCasts_iff (hp : p.Finished) (h : analyze p variableIndex = .ok t) {v o : Nat}
    (hv : v < p.values.size) : o ∈ t.of (p.stripCasts v) ↔ o ∈ t.of v := by
  unfold Program.stripCasts
  fun_induction Program.followOlder p.castSource? v with
  | case1 v src hsrc hlt ih =>
    obtain ⟨i, hop, hr⟩ := exists_cast hp.wellFormed hv hsrc
    have hsrc_lt : src < p.values.size :=
      hp.wellFormed.operand_lt (i := i) (by simp [hop, Operation.operands])
    exact (ih hsrc_lt).trans (mem_of_cast_iff hp h hop hr).symm
  | case2 => rfl
  | case3 => rfl

/-- Casts around a pointer do not change what it may alias. -/
theorem mayAlias_stripCasts (hp : p.Finished) (h : analyze p variableIndex = .ok t) {a v : Nat}
    (hv : v < p.values.size) : t.mayAlias a (p.stripCasts v) = t.mayAlias a v := by
  have hof : t.assignment.of (p.stripCasts v) = t.assignment.of v :=
    Set.ext fun o => mem_of_stripCasts_iff hp h hv
  rw [Bool.eq_iff_iff, mayAlias_iff, mayAlias_iff, Assignment.MayAlias, Assignment.MayAlias, hof]

end PointsTo

end DataRace
