import DataRace.Proofs.Alias.Dialogue
import Mathlib.Order.BooleanAlgebra.Set

/-!
# DataRace.Proofs.Alias.Standing

What the solver keeps of a query while it runs and after it.

A query is fresh, in process, solved or failed: its *standing* with the solver,
whether it is kept in the cache or among the alias queries in process.  A query
that is fresh is opened, its body is run, and it is closed with the result; any
other query is answered from its standing alone.

* `run_solve` — one layer of the recursion, for every standing;
* `isFailure_of_solve` — a query without an answer ends with a failure;
* `solve_mono` — a query that ends takes no others when it may take more steps.
-/

namespace DataRace

namespace AliasSolver

/-! ## standings -/

/-- How far a query got, as far as the solver knows. -/
def standing (s : AliasSolver) (q : Query) : Status :=
  if q.kind = .aliases then if s.active.contains q then .inProcess else .fresh
  else s.cache.status q

/-- The answer that is kept of a query. -/
def kept (s : AliasSolver) (q : Query) : Reached := s.cache.entries.getD q ∅

/-- The queries in process. -/
def opens (s : AliasSolver) : Set Query := { q | s.standing q = .inProcess }

/-- The solver after it looked a query up. -/
def noted (s : AliasSolver) (q : Query) : AliasSolver :=
  if q.kind = .aliases then s else { s with cache := (s.cache.lookup q).2 }

/-- The solver after it started a query. -/
def opened (s : AliasSolver) (q : Query) : AliasSolver :=
  if q.kind = .aliases then { s with active := s.active.insert q }
  else { s with cache := (s.cache.lookup q).2.setStatus q .inProcess }

/-- The solver after it ended a query. -/
def closed (s : AliasSolver) (q : Query) (r : Except Stop Reached) : AliasSolver :=
  if q.kind = .aliases then { s with active := s.active.erase q }
  else match r with
    | .ok r => { s with cache := s.cache.store q r }
    | .error (.unanswered status) => { s with cache := s.cache.store q (.ofStatus status) }
    | .error (.broken _) => s

/-- Answer a query from its standing; one that is fresh is opened, run and closed. -/
def settle (s : AliasSolver) (q : Query) (run : AliasSolver → Except Stop Reached × AliasSolver) :
    Except Stop Reached × AliasSolver :=
  match s.standing q with
  | .fresh => ((run (s.opened q)).1, (run (s.opened q)).2.closed q (run (s.opened q)).1)
  | .solved => (.ok (s.kept q), s.noted q)
  | .inProcess => (.ok (.ofStatus .solved), s.noted q)
  | status => (.error (.unanswered status), s.noted q)

variable {s t : AliasSolver} {q z : Query} {r : Reached}

theorem entries_lookup (c : Cache Query) (q : Query) : (c.lookup q).2.entries = c.entries := by
  unfold Cache.lookup
  split
  · rfl
  · split <;> rfl

@[simp] theorem left_noted : (s.noted q).left = s.left := by
  unfold noted
  split <;> rfl

@[simp] theorem left_opened : (s.opened q).left = s.left := by
  unfold opened
  split <;> rfl

@[simp] theorem left_closed {res : Except Stop Reached} : (s.closed q res).left = s.left := by
  unfold closed
  split
  · rfl
  · split <;> rfl

@[simp] theorem standing_noted : (s.noted q).standing z = s.standing z := by
  unfold noted
  split
  · rfl
  · simp only [standing, Cache.status, entries_lookup]

@[simp] theorem kept_noted : (s.noted q).kept z = s.kept z := by
  unfold noted
  split
  · rfl
  · simp only [kept, entries_lookup]

theorem status_insert {c : Cache Query} {m : Std.TreeMap Query Reached}
    (h : c.entries = m.insert q r) :
    c.status z = if z = q then r.status else ((m[z]?).map (·.status)).getD .fresh := by
  rw [Cache.status, h, Std.TreeMap.getElem?_insert]
  by_cases hz : z = q
  · simp [hz]
  · simp [hz, Ne.symm hz]

/-- An entry of the cache says how far its query got, and nothing about others. -/
theorem standing_insert (hq : q.kind ≠ .aliases) {c : Cache Query}
    (hc : c.entries = s.cache.entries.insert q r) :
    ({ s with cache := c } : AliasSolver).standing z =
    if z = q then r.status else s.standing z := by
  by_cases hz : z.kind = .aliases
  · have hne : z ≠ q := fun h => hq (h ▸ hz)
    simp [standing, hz, hne]
  · simp only [standing, if_neg hz]
    rw [status_insert hc]
    rfl

theorem standing_opened : (s.opened q).standing z = if z = q then .inProcess else s.standing z := by
  unfold opened
  by_cases hq : q.kind = .aliases
  · by_cases hz : z = q
    · simp [standing, hz, hq]
    · simp [standing, hz, hq, Ne.symm hz]
  · rw [if_neg hq, standing_insert hq (by rw [Cache.setStatus, entries_lookup])]

theorem standing_closed_ok (hr : r.status = .solved) : (s.closed q (.ok r)).standing z =
    if z = q then if q.kind = .aliases then .fresh else .solved else s.standing z := by
  unfold closed
  by_cases hq : q.kind = .aliases
  · by_cases hz : z = q
    · simp [standing, hz, hq]
    · simp [standing, hz, hq, Ne.symm hz]
  · rw [if_neg hq, if_neg hq, standing_insert hq rfl, hr]

theorem kept_opened (hz : z ≠ q) : (s.opened q).kept z = s.kept z := by
  unfold opened
  split
  · rfl
  · simp [kept, Cache.setStatus, entries_lookup, Std.TreeMap.getD_insert, Ne.symm hz]

theorem kept_closed_ok : (s.closed q (.ok r)).kept z =
    if z = q ∧ q.kind ≠ .aliases then r else s.kept z := by
  unfold closed
  by_cases hq : q.kind = .aliases
  · simp [kept, hq]
  · simp only [if_neg hq, kept, Cache.store, Std.TreeMap.getD_insert]
    by_cases hz : z = q
    · simp [hz, hq]
    · simp [hz, Ne.symm hz]

@[simp] theorem opens_noted : (s.noted q).opens = s.opens := by
  simp only [opens, standing_noted]

theorem opens_opened : (s.opened q).opens = insert q s.opens := by
  ext z
  simp only [opens, standing_opened, Set.mem_ofPred_eq, Set.mem_insert_iff]
  by_cases hz : z = q <;> simp [hz]

theorem opens_closed_ok (hr : r.status = .solved) : (s.closed q (.ok r)).opens = s.opens \ {q} := by
  ext z
  simp only [opens, standing_closed_ok hr, Set.mem_ofPred_eq, Set.mem_sdiff, Set.mem_singleton_iff]
  by_cases hz : z = q
  · by_cases hq : q.kind = .aliases <;> simp [hz, hq]
  · simp [hz]

theorem opens_closed_opened {u : AliasSolver} (hq : s.standing q = .fresh)
    (hr : r.status = .solved) (hu : u.opens = (s.opened q).opens) :
    (u.closed q (.ok r)).opens = s.opens := by
  have hfresh : q ∉ s.opens := by
    intro hopen
    rw [opens, Set.mem_ofPred_eq, hq] at hopen
    cases hopen
  rw [opens_closed_ok hr, hu, opens_opened, Set.insert_sdiff_self_of_notMem hfresh]

/-! ## one layer of a query -/

theorem run_cached (hq : q.kind ≠ .aliases) (m : Demand Reached) (s : AliasSolver) :
    (cached q m).run.run s =
      s.settle q (do return { ← m with status := .solved } : Demand Reached).run.run := by
  unfold cached settle standing opened noted kept Cache.status
  simp only [closed, if_neg hq, run_bind, run_get, run_modify]
  cases hentry : s.cache.entries[q]? with
  | none =>
    simp only [Cache.lookup, hentry, Option.map_none, Option.getD_none, run_bind,
      run_modify, Demand.run_tryCatch]
    generalize m.run.run _ = result
    obtain ⟨(_ | _) | _, t⟩ := result <;> rfl
  | some r =>
    have hget : s.cache.entries.getD q ∅ = r := by
      rw [Std.TreeMap.getD_eq_getD_getElem?, hentry, Option.getD_some]
    rw [hget]
    cases hstatus : r.status with
    | fresh =>
      simp only [Cache.lookup, hentry, hstatus, Option.map_some, Option.getD_some, run_bind,
        run_modify, Demand.run_tryCatch]
      generalize m.run.run _ = result
      obtain ⟨(_ | _) | _, t⟩ := result <;> rfl
    | _ =>
      simp only [Cache.lookup, hentry, hstatus, Option.map_some, Option.getD_some, run_pure,
        Demand.run_throw]

theorem run_whileActive (hq : q.kind = .aliases) (m : Demand Reached) (s : AliasSolver) :
    (whileActive q m).run.run s = s.settle q m.run.run := by
  unfold whileActive settle standing opened noted closed
  simp only [hq, if_true, run_bind, run_get]
  cases h : s.active.contains q with
  | true => rfl
  | false =>
    simp only [Bool.false_eq_true, if_false, run_bind, run_modify, Demand.run_tryCatch]
    obtain ⟨r, t⟩ := m.run.run { s with active := s.active.insert q }
    cases r <;> rfl

/-- A points-to query is about a node of the graph. -/
def InScope (x : AliasScope) (q : Query) : Prop := q.kind = .pointsTo → q.node < x.graph.nodeCount

instance (x : AliasScope) (q : Query) : Decidable (InScope x q) :=
  inferInstanceAs (Decidable (_ → _))

theorem inScope_of_yields_body {x : AliasScope} {answer : Query → Demand Reached} {steps : Nat}
    (h : (body x answer steps q).Yields s r t) : InScope x q := by
  intro hkind
  unfold body at h
  simp only [hkind] at h
  by_contra hout
  rw [if_neg hout] at h
  exact Demand.not_yields_throw h

/-- One layer of a query: it is answered from its standing, unless it is fresh. -/
theorem run_solve (x : AliasScope) (steps depth : Nat) (q : Query) (s : AliasSolver) :
    (solve x steps (depth + 1) q).run.run s =
      if InScope x q then s.settle q (body x (solve x steps depth) steps q).run.run
      else (.error (.unanswered .failed), s) := by
  unfold solve body InScope
  split
  · next hkind =>
    rw [run_whileActive hkind]
    simp only [hkind, reduceCtorEq, false_implies, if_true]
  · next offset hkind =>
    rw [run_cached (by simp [hkind])]
    simp only [hkind, reduceCtorEq, false_implies, if_true]
  · next hkind =>
    by_cases hin : q.node < x.graph.nodeCount
    · simp only [hin, hkind, if_true, forall_const]
      rw [run_cached (by simp [hkind])]
    · simp only [hin, hkind, if_false, forall_const]
      rfl

/-- What it takes for a query to end with an answer. -/
theorem yields_solve_iff {x : AliasScope} {steps depth : Nat} :
    (solve x steps (depth + 1) q).Yields s r t ↔ InScope x q ∧
      match s.standing q with
      | .fresh => ∃ u, (body x (solve x steps depth) steps q).Yields (s.opened q) r u ∧
          u.closed q (.ok r) = t
      | .solved => s.kept q = r ∧ s.noted q = t
      | .inProcess => .ofStatus .solved = r ∧ s.noted q = t
      | _ => False := by
  rw [Demand.Yields, run_solve]
  by_cases hin : InScope x q
  · rw [if_pos hin, and_iff_right hin, settle]
    cases s.standing q with
    | fresh =>
      simp only [Demand.Yields]
      generalize (body x (solve x steps depth) steps q).run.run (s.opened q) = result
      obtain ⟨res, u⟩ := result
      constructor
      · intro h
        cases h
        exact ⟨u, rfl, rfl⟩
      · rintro ⟨u, h, rfl⟩
        cases h
        rfl
    | solved =>
      dsimp only
      rw [Prod.mk.injEq, Except.ok.injEq]
    | inProcess =>
      dsimp only
      rw [Prod.mk.injEq, Except.ok.injEq]
    | _ => exact ⟨fun h => (by cases h), False.elim⟩
  · rw [if_neg hin]
    exact ⟨fun h => (by cases h), fun h => absurd h.1 hin⟩

theorem isFailure_of_solve {x : AliasScope} {steps depth : Nat} :
    ∀ q s e t, (solve x steps depth q).run.run s = (.error e, t) → e.IsFailure := by
  induction depth with
  | zero =>
    intro q s e t h
    cases h
    rfl
  | succ depth ih =>
    intro q s e t h
    rw [run_solve] at h
    split at h
    · rw [settle] at h
      split at h
      · obtain ⟨d, hd⟩ := exists_body_eq_run x steps q
        rw [hd, Prod.mk.injEq] at h
        exact d.isFailure_of_run ih (Prod.ext h.1 rfl)
      · cases h
      · cases h
      · next status hfresh hsolved hprocess =>
        cases h
        simp only [Stop.IsFailure]
        cases hst : s.standing q <;> first | rfl | contradiction
    · cases h
      rfl

/-! ## more steps -/

/-- Two solvers know the same, and the second may take more steps. -/
structure Wider (s t : AliasSolver) : Prop where
  cache : s.cache = t.cache
  active : s.active = t.active
  left : s.left ≤ t.left

namespace Wider

theorem standing (h : Wider s t) (q : Query) : s.standing q = t.standing q := by
  simp only [AliasSolver.standing, h.cache, h.active]

theorem kept (h : Wider s t) (q : Query) : s.kept q = t.kept q := by
  simp only [AliasSolver.kept, h.cache]

theorem noted (h : Wider s t) (q : Query) : Wider (s.noted q) (t.noted q) := by
  unfold AliasSolver.noted
  split
  · exact h
  · exact ⟨by rw [h.cache], h.active, h.left⟩

theorem opened (h : Wider s t) (q : Query) : Wider (s.opened q) (t.opened q) := by
  unfold AliasSolver.opened
  split
  · exact ⟨h.cache, by rw [h.active], h.left⟩
  · exact ⟨by rw [h.cache], h.active, h.left⟩

theorem closed (h : Wider s t) (q : Query) (r : Reached) :
    Wider (s.closed q (.ok r)) (t.closed q (.ok r)) := by
  unfold AliasSolver.closed
  split
  · exact ⟨h.cache, by rw [h.active], h.left⟩
  · exact ⟨by rw [h.cache], h.active, h.left⟩

theorem spend (h : Wider s t) (hleft : 1 < s.left) :
    1 < t.left ∧ Wider { s with left := s.left - 1 } { t with left := t.left - 1 } :=
  ⟨lt_of_lt_of_le hleft h.left, h.cache, h.active, by have := h.left; simp only; omega⟩

end Wider

theorem solve_mono {x : AliasScope} {steps steps' : Nat} (hsteps : steps ≤ steps') {depth : Nat} :
    ∀ {depth'}, depth ≤ depth' → ∀ {q s t r s'}, Wider s t →
      (solve x steps depth q).Yields s r s' →
      ∃ t', (solve x steps' depth' q).Yields t r t' ∧ Wider s' t' := by
  induction depth with
  | zero =>
    intro _ _ q s t r s' _ h
    exact absurd h Demand.not_yields_throw
  | succ depth ih =>
    intro depth' hdepth q s t r s' hst h
    obtain ⟨depth', rfl⟩ : ∃ k, depth' = k + 1 := ⟨depth' - 1, by omega⟩
    rw [yields_solve_iff, hst.standing] at h
    simp only [yields_solve_iff]
    obtain ⟨hin, h⟩ := h
    split at h
    · obtain ⟨u, hbody, rfl⟩ := h
      obtain ⟨d, hd⟩ := exists_body_eq_run x steps q
      rw [hd] at hbody
      obtain ⟨v, hv, huv⟩ := d.yields_of_yields (fun _ _ h => h.spend)
        (fun z _ _ _ _ h => ih (Nat.le_of_succ_le_succ hdepth) h) (hst.opened q) hbody
      rw [← hd] at hv
      exact ⟨_, ⟨hin, v, yields_body_mono hsteps hv, rfl⟩, huv.closed q r⟩
    · obtain ⟨rfl, rfl⟩ := h
      exact ⟨_, ⟨hin, (hst.kept q).symm, rfl⟩, hst.noted q⟩
    · obtain ⟨rfl, rfl⟩ := h
      exact ⟨_, ⟨hin, rfl, rfl⟩, hst.noted q⟩
    · exact h.elim

end AliasSolver

end DataRace
