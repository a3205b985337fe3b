import DataRace.Proofs.Alias.Independence

/-!
# DataRace.Proofs.Alias.Settled

What queries leave behind in the solver.

A query is marked as in process while it runs, and its mark is replaced when it
ends: by its answer, or by the mere failure when the budget was spent somewhere
below it.  Only a query that is broken off by a number out of range leaves its
mark, and those of the queries around it, where they are.

* `Leaves` — from a solver to a later one: what was kept stays, and what is new is
  settled; `leaves_solve` says so of a query with all the queries below it;
* `settled_after` — the same of whole queries one after the other.
-/

namespace DataRace

/-- The entry of a query that has ended: its answer, or that there is none. -/
def Reached.IsSettled (r : Reached) : Prop := r.status = .solved ∨ r.status.isFailure ∧ r.isEmpty

namespace AliasSolver

variable {x : AliasScope} {s t u : AliasSolver} {q z : Query} {r : Reached}

/-- A part of a query is broken off. -/
def IsBroken {α : Type} : Except Stop α → Prop
  | .error (.broken _) => True
  | _ => False

/-- A later solver keeps every entry that is not fresh, has the same alias queries in process, and,
unless what lies between was broken off, has no new entry that is not settled. -/
structure Leaves (broken : Prop) (s t : AliasSolver) : Prop where
  kept : ∀ (z : Query) (r : Reached), s.cache.entries[z]? = some r → r.status ≠ .fresh →
    t.cache.entries[z]? = some r
  active : ∀ z, t.active.contains z = s.active.contains z
  settled : ¬broken → ∀ (z : Query) (r : Reached), t.cache.entries[z]? = some r →
    s.cache.entries[z]? = some r ∨ r.IsSettled

namespace Leaves

theorem of_entries_eq {broken : Prop} (hcache : t.cache.entries = s.cache.entries)
    (hactive : t.active = s.active) : Leaves broken s t where
  kept z r hr _ := by rw [hcache, hr]
  active z := by rw [hactive]
  settled _ z r hr := .inl (by rw [← hcache, hr])

theorem trans {broken : Prop} (h : Leaves False s t) (h' : Leaves broken t u) :
    Leaves broken s u where
  kept z r hr hne := h'.kept z r (h.kept z r hr hne) hne
  active z := (h'.active z).trans (h.active z)
  settled hend z r hr := (h'.settled hend z r hr).elim (h.settled not_false z r) .inr

end Leaves

/-! ## one layer of a query -/

theorem leaves_noted (broken : Prop) : Leaves broken s (s.noted q) := by
  unfold noted
  split
  · exact .of_entries_eq rfl rfl
  · exact .of_entries_eq (entries_lookup s.cache q) rfl

theorem getElem?_opened (hq : q.kind ≠ .aliases) : (s.opened q).cache.entries[z]? =
    if z = q then some { s.kept q with status := .inProcess } else s.cache.entries[z]? := by
  simp only [opened, if_neg hq, Cache.setStatus, entries_lookup, Std.TreeMap.getElem?_insert]
  by_cases hz : z = q
  · simp [hz, AliasSolver.kept]
  · simp [hz, Ne.symm hz]

theorem getElem?_store (c : Cache Query) :
    (c.store q r).entries[z]? = if z = q then some r else c.entries[z]? := by
  simp only [Cache.store, Std.TreeMap.getElem?_insert]
  by_cases hz : z = q
  · simp [hz]
  · simp [hz, Ne.symm hz]

/-- Closing a query that was not broken off replaces its entry by a settled one. -/
theorem exists_getElem?_closed {res : Except Stop Reached} (hq : q.kind ≠ .aliases)
    (hres : ¬IsBroken res) (hok : ∀ r, res = .ok r → r.status = .solved)
    (herror : ∀ e, res = .error e → e.IsFailure) : ∃ r : Reached, r.IsSettled ∧
      ∀ z : Query, (s.closed q res).cache.entries[z]? =
        if z = q then some r else s.cache.entries[z]? := by
  obtain (status | err) | r := res
  · refine ⟨.ofStatus status, .inr ⟨herror _ rfl, rfl⟩, fun z => ?_⟩
    simp only [closed, if_neg hq, getElem?_store]
  · exact absurd trivial hres
  · refine ⟨r, .inl (hok r rfl), fun z => ?_⟩
    simp only [closed, if_neg hq, getElem?_store]

theorem active_opened_of_ne (hq : q.kind ≠ .aliases) : (s.opened q).active = s.active := by
  simp only [opened, if_neg hq]

theorem active_closed_of_ne {res : Except Stop Reached} (hq : q.kind ≠ .aliases) :
    (s.closed q res).active = s.active := by
  simp only [closed, if_neg hq]
  split <;> rfl

/-- A query that was fresh is closed with what its body leaves. -/
theorem Leaves.closed {res : Except Stop Reached} (hfresh : s.standing q = .fresh)
    (h : Leaves (IsBroken res) (s.opened q) u) (hok : ∀ r, res = .ok r → r.status = .solved)
    (herror : ∀ e, res = .error e → e.IsFailure) : Leaves (IsBroken res) s (u.closed q res) := by
  by_cases hq : q.kind = .aliases
  · have hopened : (s.opened q).cache = s.cache := by simp only [opened, if_pos hq]
    have hclosed : (u.closed q res).cache = u.cache := by simp only [AliasSolver.closed, if_pos hq]
    refine ⟨fun z r hr hne => ?_, fun z => ?_, fun hend z r hr => ?_⟩
    · rw [hclosed]
      exact h.kept z r (by rw [hopened, hr]) hne
    · have hz := h.active z
      simp only [AliasSolver.closed, opened, if_pos hq, standing] at hz hfresh ⊢
      by_cases hzq : z = q
      · subst hzq
        cases hs : s.active.contains z <;> simp_all
      · have hqz : (compare q z == .eq) = false := by simp [Ne.symm hzq]
        rw [Std.TreeSet.contains_erase, hz, Std.TreeSet.contains_insert, bne, hqz]
        rfl
    · rw [hclosed] at hr
      exact hopened ▸ h.settled hend z r hr
  · refine ⟨fun z r hr hne => ?_, fun z => ?_, fun hend z r hr => ?_⟩
    · have hzq : z ≠ q := by
        rintro rfl
        simp only [standing, if_neg hq, Cache.status, hr] at hfresh
        exact hne hfresh
      have hu := h.kept z r (by rw [getElem?_opened hq, if_neg hzq, hr]) hne
      by_cases hend : IsBroken res
      · obtain (status | err) | r := res
        · exact hend.elim
        · simp only [AliasSolver.closed, if_neg hq, hu]
        · exact hend.elim
      · obtain ⟨_, -, hentries⟩ := exists_getElem?_closed (s := u) hq hend hok herror
        rw [hentries, if_neg hzq, hu]
    · rw [active_closed_of_ne hq, h.active, active_opened_of_ne hq]
    · obtain ⟨r', hr', hentries⟩ := exists_getElem?_closed (s := u) hq hend hok herror
      rw [hentries] at hr
      split at hr
      · cases hr
        exact .inr hr'
      · next hzq =>
        have hold := h.settled hend z r hr
        rwa [getElem?_opened hq, if_neg hzq] at hold

/-! ## queries with the queries below them -/

theorem Dialogue.leaves_of_run {α : Type} {answer : Query → Demand Reached}
    (hanswer : ∀ q s, Leaves (IsBroken ((answer q).run.run s).1) s ((answer q).run.run s).2)
    (d : Dialogue α) : ∀ s, Leaves (IsBroken ((d.run answer).run.run s).1) s
      ((d.run answer).run.run s).2 := by
  have hspend {s : AliasSolver} (left : Int) (broken : Prop) : Leaves broken s { s with left } :=
    .of_entries_eq rfl rfl
  induction d with
  | done a =>
    intro s
    exact .of_entries_eq rfl rfl
  | stop e he =>
    intro s
    exact .of_entries_eq rfl rfl
  | spend next ih =>
    intro s
    rw [Dialogue.run, run_bind, Demand.run_spend]
    by_cases hlow : s.left ≤ Int64.minValue.toInt
    · rw [if_pos hlow]
      exact .of_entries_eq rfl rfl
    · rw [if_neg hlow]
      by_cases hlast : s.left - 1 ≤ 0
      · rw [if_pos hlast]
        exact hspend _ _
      · rw [if_neg hlast]
        exact (hspend _ _).trans (ih _)
  | ask q next ih =>
    intro s
    have hq := hanswer q s
    rw [Dialogue.run, run_bind]
    generalize (answer q).run.run s = result at hq ⊢
    obtain ⟨(status | err) | r, t⟩ := result
    · exact hq
    · exact hq
    · exact hq.trans (ih r t)

theorem leaves_solve (x : AliasScope) (steps depth : Nat) (q : Query) (s : AliasSolver) :
    Leaves (IsBroken ((solve x steps depth q).run.run s).1) s
      ((solve x steps depth q).run.run s).2 := by
  induction depth generalizing q s with
  | zero => exact .of_entries_eq rfl rfl
  | succ depth ih =>
    rw [run_solve]
    by_cases hin : InScope x q
    · rw [if_pos hin, settle]
      split
      · next hfresh =>
        obtain ⟨d, hd⟩ := exists_body_eq_run x steps q
        have hbody := Dialogue.leaves_of_run ih d (s.opened q)
        rw [← hd] at hbody
        refine hbody.closed hfresh (fun r hr => status_of_yields_body (Prod.ext hr rfl)) ?_
        intro e he
        rw [hd] at he
        exact d.isFailure_of_run isFailure_of_solve (Prod.ext he rfl)
      · exact leaves_noted _
      · exact leaves_noted _
      · exact leaves_noted _
    · rw [if_neg hin]
      exact .of_entries_eq rfl rfl

/-! ## whole queries -/

/-- Nothing is half done: no alias query is in process, and of every query that was started the
answer is kept, or that there is none. -/
structure Settled (s : AliasSolver) : Prop where
  active : ∀ z, s.active.contains z = false
  entries : ∀ (z : Query) (r : Reached), s.cache.entries[z]? = some r → r.IsSettled

/-- The solver after whole queries one after the other, even if some are broken off. -/
def after (x : AliasScope) (s : AliasSolver) (qs : List Query) : AliasSolver :=
  qs.foldl (fun s q => ((ask x q).run.run s).2) s

theorem leaves_ask (x : AliasScope) (q : Query) (s : AliasSolver) :
    Leaves (¬((ask x q).run.run s).1.isOk) s.started ((ask x q).run.run s).2 := by
  have hsolve := leaves_solve x s.limit (2 * s.limit) q s.started
  rw [run_ask]
  generalize (solve x s.limit (2 * s.limit) q).run.run s.started = result at hsolve ⊢
  obtain ⟨(status | err) | r, t⟩ := result
  · refine .trans (t := t) ⟨hsolve.kept, hsolve.active, fun _ => hsolve.settled not_false⟩ ?_
    dsimp only
    split <;> exact .of_entries_eq rfl rfl
  · exact ⟨hsolve.kept, hsolve.active, fun hok => absurd (by simp [Except.isOk, Except.toBool]) hok⟩
  · exact ⟨hsolve.kept, hsolve.active, fun _ => hsolve.settled not_false⟩

/-- A whole query that is not broken off leaves nothing half done. -/
theorem Settled.ask (hs : Settled s) (hok : ((ask x q).run.run s).1.isOk) :
    Settled ((AliasSolver.ask x q).run.run s).2 where
  active z := (leaves_ask x q s).active z
  entries z r hr :=
    ((leaves_ask x q s).settled (not_not.2 hok) z r hr).elim (hs.entries z r) id

theorem Settled.after {qs : List Query} (hs : Settled s)
    (hok : ((qs.mapM (AliasSolver.ask x)).run.run s).1.isOk) :
    Settled (AliasSolver.after x s qs) := by
  induction qs generalizing s with
  | nil => exact hs
  | cons q qs ih =>
    rw [List.mapM_cons, run_bind] at hok
    have hask := hs.ask (x := x) (q := q)
    rw [AliasSolver.after, List.foldl_cons]
    generalize (AliasSolver.ask x q).run.run s = result at hask hok ⊢
    obtain ⟨err | r, t⟩ := result
    · cases hok
    · refine ih (hask rfl) ?_
      dsimp only at hok ⊢
      rw [run_bind] at hok
      generalize (qs.mapM (AliasSolver.ask x)).run.run t = rest at hok ⊢
      obtain ⟨err | rs, u⟩ := rest
      · cases hok
      · rfl

/-- An entry that is not fresh stays as it is. -/
theorem getElem?_after {qs : List Query} (hr : s.cache.entries[z]? = some r)
    (hne : r.status ≠ .fresh) : (after x s qs).cache.entries[z]? = some r := by
  induction qs generalizing s with
  | nil => exact hr
  | cons q qs ih => exact ih ((leaves_ask x q s).kept z r hr hne)

theorem settled_new (budget : Int) (log : Log) : Settled { budget, log } where
  active _ := rfl
  entries z r hr := by simp at hr

/-- Whole queries of which none is broken off leave nothing half done on a new solver, and what is
kept of a query that was solved or failed is changed by no later query. -/
theorem settled_after (x : AliasScope) (budget : Int) (log : Log) (qs : List Query) :
    (((qs.mapM (ask x)).run.run { budget, log }).1.isOk → Settled (after x { budget, log } qs)) ∧
    ∀ (later : List Query) (z : Query) (r : Reached),
      (after x { budget, log } qs).cache.entries[z]? = some r →
      r.status = .solved ∨ r.status.isFailure →
      (after x { budget, log } (qs ++ later)).cache.entries[z]? = some r := by
  refine ⟨(settled_new budget log).after, fun later z r hr hstatus => ?_⟩
  have hne : r.status ≠ .fresh := by
    intro h
    rw [h] at hstatus
    rcases hstatus with h | h <;> cases h
  rw [after, List.foldl_append]
  exact getElem?_after hr hne

/-- A query whose budget is spent is followed by one that is answered. -/
theorem settled_after_storedField : ∃ subject par,
    Subject.prepare (Builder.ofScript storedField) {} = .ok subject ∧
    Parallelism.analyze subject (.collect subject) = .ok par ∧
    let queries : List Query := [⟨.pointsTo, 5, .global⟩, ⟨.aliases, 4, .global⟩]
    let s := after ⟨subject, par⟩ { budget := 3, log := default } queries
    (s.cache.status ⟨.pointsTo, 5, .global⟩ = .outOfBudget ∧
      s.cache.status ⟨.pointsTo, 4, .global⟩ = .solved) ∧ Settled s := by
  have heval : (Subject.prepare (Builder.ofScript storedField) {}).toOption.any (fun subject =>
      (Parallelism.analyze subject (.collect subject)).toOption.any fun par =>
        let queries : List Query := [⟨.pointsTo, 5, .global⟩, ⟨.aliases, 4, .global⟩]
        let s := after ⟨subject, par⟩ { budget := 3, log := default } queries
        s.cache.status ⟨.pointsTo, 5, .global⟩ = .outOfBudget &&
        s.cache.status ⟨.pointsTo, 4, .global⟩ = .solved &&
        ((queries.mapM (ask ⟨subject, par⟩)).run.run
          { budget := 3, log := default }).1.isOk) = true := by
    decide +kernel
  obtain ⟨subject, hsubject, heval⟩ := exists_of_any_toOption heval
  obtain ⟨par, hpar, heval⟩ := exists_of_any_toOption heval
  simp only [Bool.and_eq_true, decide_eq_true_eq] at heval
  obtain ⟨hstatus, hok⟩ := heval
  exact ⟨subject, par, hsubject, hpar, hstatus, (settled_after _ 3 default _).1 hok⟩

/-- A projection by the last offset there is, of a pointer that may stand at any field. -/
def lastOffset : List Command :=
  [.global "g" 2, .declare "main" 0, .body 0, .append 0 0 (.project 0 none none),
    .append 0 0 (.project 2 (some 4294967295) none), .append 0 0 (.ret none)]

/-- A query that is broken off by a number out of range stays in process. -/
theorem not_forall_settled_after :
    ¬∀ (p : Program) (config : Config) (subject : Subject) (par : Parallelism) (budget : Int)
      (log : Log) (qs : List Query), p.Finished → Subject.prepare p config = .ok subject →
      Parallelism.analyze subject (.collect subject) = .ok par → 0 < budget →
      Settled (after ⟨subject, par⟩ { budget, log } qs) := by
  intro hall
  have hfin : (Builder.ofScript lastOffset).Finished :=
    Builder.finished_ofScript (by decide +kernel)
  let query : Query := ⟨.pointsTo, 3, .global⟩
  have heval : (Subject.prepare (Builder.ofScript lastOffset)
      { variableIndex := false }).toOption.any (fun subject =>
      (Parallelism.analyze subject (.collect subject)).toOption.any fun par =>
        ((after ⟨subject, par⟩ { budget := 1000, log := default }
          [query]).cache.entries[query]?).any
          (·.status = .inProcess)) = true := by
    decide +kernel
  obtain ⟨subject, hsubject, heval⟩ := exists_of_any_toOption heval
  obtain ⟨par, hpar, heval⟩ := exists_of_any_toOption heval
  obtain ⟨r, hr, hstatus⟩ := (Option.any_eq_true _ _).1 heval
  have hsettled := hall _ _ subject par 1000 default [query] hfin hsubject hpar (by decide)
  have hr := hsettled.entries query r hr
  rw [Reached.IsSettled, of_decide_eq_true hstatus] at hr
  rcases hr with h | ⟨h, -⟩ <;> cases h

end AliasSolver

end DataRace
