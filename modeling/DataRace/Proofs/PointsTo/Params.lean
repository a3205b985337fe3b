import DataRace.Proofs.PointsTo.Narrow

/-!
# DataRace.Proofs.PointsTo.Params

A parameter points where the values passed for it point.

Calls and thread starts pass values for the parameters of a function.  That a
parameter points where these point is a constraint.  That it points nowhere else
is seen by narrowing it to them in the least solution (`Closed.narrow`): no other
instruction has anything flow into a parameter, and a recursive call that passes
the parameter on asks for nothing new.
-/

namespace DataRace

open PointsTo

namespace PointsTo

variable {p : Program} {variableIndex : Bool} {t : PointsTo} {f v o : Nat}

/-- A call or a thread start passes a value for a parameter; a call that passes the parameter itself
on does not count. -/
structure Passes (p : Program) (t : PointsTo) (a v : ValueId) : Prop where
  ne : a ≠ v
  passed : ∃ i f, (p.func f).isDeclaration = false ∧
    (f ∈ t.callees i ∧ (a, v) ∈ (p.callArgs i).zip (p.func f).params ∨
      f ∈ t.spawnees i ∧ p.routineArg i = some a ∧ (p.func f).params.head? = some v)

/-- A parameter points where the values passed for it point. -/
theorem mem_of_param_iff (hp : p.Finished) (h : analyze p variableIndex = .ok t)
    (hv : v ∈ (p.func f).params) : o ∈ t.of v ↔ ∃ a, Passes p t a v ∧ o ∈ t.of a := by
  obtain ⟨k, hdef⟩ := hp.wellFormed.param_def hv
  have hA := analyze_closed hp h
  have hpassed {a : ValueId} (ha : Passes p t a v) : t.assignment.of a ⊆ t.assignment.of v := by
    obtain ⟨-, i, g, hd, ⟨hg, hzip⟩ | ⟨hg, harg, hhead⟩⟩ := ha
    · exact hA.argument hg hd hzip
    · obtain ⟨qs, hqs⟩ := List.head?_eq_some_iff.1 hhead
      exact hA.startArgument hg hd harg hqs
  constructor
  · have hnarrow := hA.narrow (S := {o | ∃ a, Passes p t a v ∧ o ∈ t.of a}) hp.wellFormed
      (fun o ⟨a, ha, ho⟩ => hpassed ha ho) (by simp [hdef]) (by simp [hdef]) (by simp [hdef])
      (fun hne hg hd hzip o ho => ⟨_, ⟨hne, _, _, hd, .inl ⟨hg, hzip⟩⟩, ho⟩)
      (fun hne hg hd harg hqs o ho =>
        ⟨_, ⟨hne, _, _, hd, .inr ⟨hg, harg, by rw [hqs, List.head?_cons]⟩⟩, ho⟩)
    intro ho
    have hmem := (analyze_within hp h hnarrow).of (hp.wellFormed.param_lt hv) ho
    rwa [Assignment.of_narrow_self] at hmem
  · rintro ⟨a, ha, ho⟩
    exact hpassed ha ho

end PointsTo

end DataRace
