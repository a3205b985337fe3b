import DataRace.Alias.Refinement
import DataRace.Proofs.Alias.Independence
import DataRace.Proofs.Subject

/-!
# DataRace.Proofs.Alias.Budget

A larger budget for alias queries proves no pair less apart.

Two refinements of one program under two budgets are run beside each other.  As
long as every query of the first is solved, the second takes the same steps: the
caches stay equal, and so do the answers.  Accesses are found apart only by
queries that are solved, so a run that finds them apart is matched to its end.

* `Ampler` — a solver knows the same as another and has no smaller budget;
* `AliasRefinement.Carries` — a step of the refinement ends in the same way with
  an ampler solver, if it ends well; one lemma for each function of the refinement;
* `AliasRefinement.apart_of_larger_budget` — what is solved stays solved, and what
  is apart stays apart.
-/

namespace DataRace

variable {x : AliasScope} {budget : Int}

/-! ## what the budget decides nothing about -/

/-- The subject with another budget for alias queries. -/
def Subject.withAliasBudget (s : Subject) (budget : Int) : Subject :=
  { s with config := { s.config with aliasBudget := budget } }

/-- The scope with another budget for alias queries. -/
def AliasScope.withBudget (x : AliasScope) (budget : Int) : AliasScope :=
  { x with subject := x.subject.withAliasBudget budget }

namespace AliasSolver

theorem solve_withBudget (steps : Nat) : solve (x.withBudget budget) steps = solve x steps := by
  funext depth
  induction depth with
  | zero => rfl
  | succ depth ih =>
    funext q
    unfold solve
    rw [ih]
    rfl

theorem ask_withBudget : ask (x.withBudget budget) = ask x := by
  funext q
  unfold ask
  simp only [solve_withBudget]

end AliasSolver

namespace AliasScope
theorem pathsFrom_withBudget : pathsFrom (x.withBudget budget) = pathsFrom x := by
  funext limit main q depth
  induction depth with
  | zero => rfl
  | succ depth ih =>
    funext below found i
    unfold pathsFrom
    rw [ih]
    rfl

theorem loopPathsFrom_withBudget : loopPathsFrom (x.withBudget budget) = loopPathsFrom x := by
  funext limit main depth
  induction depth with
  | zero => rfl
  | succ depth ih =>
    funext below found i
    unfold loopPathsFrom
    rw [ih]
    rfl

theorem pathsTo_withBudget : pathsTo (x.withBudget budget) = pathsTo x := by
  funext i q
  unfold pathsTo
  rw [pathsFrom_withBudget, loopPathsFrom_withBudget]
  rfl

theorem contextPairs_withBudget : contextPairs (x.withBudget budget) = contextPairs x := by
  funext i q j r
  unfold contextPairs
  rw [pathsTo_withBudget]
  rfl

end AliasScope

namespace AliasRefinement

theorem apartUnderAll_withBudget (a b : Access) :
    apartUnderAll (x.withBudget budget) a b = apartUnderAll x a b := by
  have hunder : apartUnder (x.withBudget budget) a b = apartUnder x a b := by
    unfold apartUnder resolve AliasSolver.pointsTo
    rw [AliasSolver.ask_withBudget]
    rfl
  funext contexts
  induction contexts with
  | nil => rfl
  | cons c contexts ih => rw [apartUnderAll, apartUnderAll, hunder, ih]

theorem apart_withBudget (a b : Access) : apart (x.withBudget budget) a b = apart x a b := by
  have hall (points : List (Point × Point)) :
      apartAtAll (x.withBudget budget) a b points = apartAtAll x a b points := by
    have hcontexts : contextsAt (x.withBudget budget) = contextsAt x := by
      funext i j q r
      unfold contextsAt
      rw [AliasScope.contextPairs_withBudget]
      rfl
    induction points with
    | nil => rfl
    | cons p points ih => rw [apartAtAll, apartAtAll, hcontexts, apartUnderAll_withBudget, ih]
  unfold apart
  rw [hall]
  rfl

end AliasRefinement

/-! ## whole queries under two budgets -/

namespace AliasSolver

variable {s s' t : AliasSolver} {q : Query} {r : Reached}

/-- A solver knows what another one does, and its queries may take no fewer steps. -/
structure Ampler (s s' : AliasSolver) : Prop where
  cache : s.cache = s'.cache
  budget : s.budget ≤ s'.budget

theorem budget_of_solve {steps depth : Nat} : ∀ {q s r t},
    (solve x steps depth q).Yields s r t → t.budget = s.budget := by
  induction depth with
  | zero =>
    intro q s r t h
    exact absurd h Demand.not_yields_throw
  | succ depth ih =>
    intro q s r t h
    have hnoted : (s.noted q).budget = s.budget := by
      unfold noted
      split <;> rfl
    obtain ⟨-, h⟩ := yields_solve_iff.1 h
    split at h
    · obtain ⟨u, hbody, rfl⟩ := h
      have hopened : (s.opened q).budget = s.budget := by
        unfold opened
        split <;> rfl
      have hclosed : (u.closed q (.ok r)).budget = u.budget := by
        unfold closed
        split <;> rfl
      obtain ⟨d, hd⟩ := exists_body_eq_run x steps q
      rw [hd] at hbody
      rw [hclosed]
      exact d.invariant_of_yields (I := fun u => u.budget = s.budget) (fun _ hu => hu)
        (fun _ _ _ _ hu hq => (ih hq).trans hu) hopened hbody
    · exact h.2 ▸ hnoted
    · exact h.2 ▸ hnoted
    · exact h.elim

/-- A whole query that is solved is answered in the same way by an ampler solver. -/
theorem Ampler.ask (h : Ampler s s') (hask : (ask x q).run.run s = (.ok r, t))
    (hr : r.isSolved) : ∃ t', (AliasSolver.ask x q).run.run s' = (.ok r, t') ∧ Ampler t t' := by
  have hsolve := yields_of_ask hask hr
  have hlimit : s.limit ≤ s'.limit := by
    have := h.budget
    simp only [limit]
    omega
  have hstarted : Wider s.started s'.started := ⟨h.cache, rfl, h.budget⟩
  obtain ⟨t', ht', hwider⟩ :=
    solve_mono hlimit (Nat.mul_le_mul_left 2 hlimit) hstarted hsolve
  refine ⟨t', ask_of_yields ht', hwider.cache, ?_⟩
  rw [budget_of_solve hsolve, budget_of_solve ht']
  exact h.budget

end AliasSolver

/-! ## the refinement under two budgets -/

namespace AliasRefinement

open AliasSolver

variable {α β : Type}

theorem run_bind (m : Refine α) (f : α → Refine β) (r : AliasRefinement) :
    (m >>= f).run.run r = match m.run.run r with
      | (.ok a, t) => (f a).run.run t
      | (.error e, t) => (.error e, t) := by
  rw [ExceptT.run_bind, StateT.run_bind]
  obtain ⟨a, t⟩ := m.run.run r
  cases a <;> rfl

/-- A step that ends well ends in the same way with an ampler solver. -/
def Carries (good : α → Prop) (m : Refine α) : Prop :=
  ∀ r r' a t, Ampler r.solver r'.solver → m.run.run r = (.ok a, t) → good a →
    ∃ t', m.run.run r' = (.ok a, t') ∧ Ampler t.solver t'.solver

theorem Carries.pure (good : α → Prop) (a : α) : Carries good (pure a) := by
  intro r r' b t hamp h _
  cases h
  exact ⟨r', rfl, hamp⟩

/-- One step after another, where only what ends well can be followed by what ends well. -/
theorem Carries.bind {good : α → Prop} {good' : β → Prop} {m : Refine α} {f : α → Refine β}
    (hm : Carries good m) (hf : ∀ a, good a → Carries good' (f a))
    (hback : ∀ a r b t, (f a).run.run r = (.ok b, t) → good' b → good a) :
    Carries good' (m >>= f) := by
  intro r r' b t hamp h hb
  rw [run_bind] at h
  split at h
  · next a u hfirst =>
    have ha := hback a u b t h hb
    obtain ⟨u', hu', hamp'⟩ := hm r r' a u hamp hfirst ha
    obtain ⟨t', ht', hend⟩ := hf a ha u u' b t hamp' h hb
    refine ⟨t', ?_, hend⟩
    rw [run_bind, hu']
    exact ht'
  · cases h

/-- A step that ends well goes on, and any other ends in a no. -/
theorem Carries.guarded {good : α → Prop} {m : Refine α} {f : α → Refine Bool}
    (hm : Carries good m) (hf : ∀ a, good a → Carries (· = true) (f a))
    (hstop : ∀ a, ¬good a → f a = Pure.pure false) : Carries (· = true) (m >>= f) := by
  refine hm.bind hf fun a r b t h hb => ?_
  by_contra ha
  rw [hstop a ha] at h
  cases h
  cases hb

theorem run_resolve (a : Access) (c : Context) (r : AliasRefinement) :
    (resolve x a c).run.run r =
      (((ask x ⟨.pointsTo, x.graph.valueNode a.ptr, c⟩).run.run r.solver).1,
        { r with solver :=
          ((ask x ⟨.pointsTo, x.graph.valueNode a.ptr, c⟩).run.run r.solver).2 }) := by
  unfold resolve pointsTo
  rw [run_bind]
  simp only [show (get : Refine AliasRefinement).run.run r = (.ok r, r) from rfl]
  generalize (ask x ⟨.pointsTo, x.graph.valueNode a.ptr, c⟩).run.run r.solver = result
  obtain ⟨_ | found, t⟩ := result <;> rfl

theorem carries_resolve (a : Access) (c : Context) :
    Carries (fun r => r.isSolved) (resolve x a c) := by
  intro r r' found t hamp h hfound
  rw [run_resolve] at h
  obtain ⟨hfst, rfl⟩ := Prod.mk.inj h
  obtain ⟨t', ht', hend⟩ := hamp.ask (Prod.ext hfst rfl) hfound
  refine ⟨{ r' with solver := t' }, ?_, hend⟩
  rw [run_resolve, ht']

/-- Accesses are apart under contexts only when both queries are solved. -/
theorem carries_apartUnder (a b : Access) (c d : Context) :
    Carries (· = true) (apartUnder x a b c d) := by
  refine (carries_resolve a c).guarded (fun s hs => ?_) fun s hs => by simp [hs]
  rw [hs]
  refine (carries_resolve b d).guarded (fun t ht => ?_) fun t ht => by simp [ht]
  rw [ht]
  exact .pure _ _

theorem carries_apartUnderAll (a b : Access) (contexts : List (Context × Context)) :
    Carries (· = true) (apartUnderAll x a b contexts) := by
  induction contexts with
  | nil => exact .pure _ _
  | cons c contexts ih =>
    refine (carries_apartUnder a b c.1 c.2).guarded (fun one hone => ?_)
      fun one hone => by simp [hone]
    rw [hone]
    exact ih

theorem carries_apartAtAll (a b : Access) (points : List (Point × Point)) :
    Carries (· = true) (apartAtAll x a b points) := by
  induction points with
  | nil => exact .pure _ _
  | cons p points ih =>
    rw [apartAtAll]
    split
    · exact .pure _ _
    · refine (carries_apartUnderAll a b _).guarded (fun one hone => ?_)
        fun one hone => by simp [hone]
      rw [hone]
      exact ih

theorem carries_apart (a b : Access) : Carries (· = true) (apart x a b) := by
  refine (carries_apartAtAll a b _).bind (fun refined hrefined => ?_) ?_
  · intro r r' apart t hamp h _
    rw [hrefined] at h ⊢
    cases h
    exact ⟨_, rfl, hamp⟩
  · intro refined r apart t h hapart
    cases h
    exact hapart

end AliasRefinement

/-! ## two budgets -/

theorem Config.validate_of_larger {c : Config} {small large : Int} (hle : small ≤ large)
    (h : validate { c with aliasBudget := small } = .ok ()) :
    validate { c with aliasBudget := large } = .ok () := by
  unfold validate at h ⊢
  dsimp only at h ⊢
  by_cases hrisky : c.riskyPairBudget = 0
  · simp [hrisky] at h
  · by_cases hsmall : small ≤ 0
    · simp [hrisky, hsmall] at h
    · have hlarge : ¬large ≤ 0 := by omega
      simpa [hrisky, hsmall, hlarge] using h

/-- Preparing a program does not look at the budget for alias queries. -/
theorem Subject.prepare_withAliasBudget {p : Program} {c : Config} {small large : Int} {s : Subject}
    (hle : small ≤ large) (hs : prepare p { c with aliasBudget := small } = .ok s) :
    prepare p { c with aliasBudget := large } = .ok (s.withAliasBudget large) := by
  unfold prepare at hs ⊢
  obtain ⟨_, hvalid, hs⟩ := exists_of_bind_eq_ok hs
  obtain ⟨pointers, hpointers, hs⟩ := exists_of_bind_eq_ok hs
  cases hs
  rw [Config.validate_of_larger hle hvalid]
  simp only [hpointers, bind, Except.bind]
  rfl

namespace AliasRefinement

open AliasSolver

/-- **More budget never loses a proof.**  Under a larger budget for alias queries, a query that a
new solver has solved is solved by a new solver with the same answer, and accesses that a new
refinement has found apart are found apart by a new one. -/
theorem apart_of_larger_budget (p : Program) (c : Config) (small large : Int) (s : Subject)
    (hle : small ≤ large) (hs : Subject.prepare p { c with aliasBudget := small } = .ok s) :
    ∃ s', Subject.prepare p { c with aliasBudget := large } = .ok s' ∧
      Operations.collect s' = Operations.collect s ∧
      (∀ ops, Parallelism.analyze s' ops = Parallelism.analyze s ops) ∧
      (∀ par, Parallelism.refine s' par = Parallelism.refine s par) ∧
      ∀ (par : Parallelism) (log log' : Log),
        (∀ q r t, (ask ⟨s, par⟩ q).run.run { budget := small, log } = (.ok r, t) → r.isSolved →
          ∃ t', (ask ⟨s', par⟩ q).run.run { budget := large, log := log' } = (.ok r, t')) ∧
        ∀ a b r t, start s.config log = some r →
          (apart ⟨s, par⟩ a b).run.run r = (.ok true, t) →
          ∃ r' t', start s'.config log' = some r' ∧
            (apart ⟨s', par⟩ a b).run.run r' = (.ok true, t') := by
  refine ⟨_, Subject.prepare_withAliasBudget hle hs, rfl, fun _ => rfl, fun _ => rfl,
    fun par log log' => ⟨fun q r t hask hr => ?_, fun a b r t hstart hapart => ?_⟩⟩
  · have hnew : Ampler { budget := small, log } { budget := large, log := log' } := ⟨rfl, hle⟩
    obtain ⟨t', ht', -⟩ := hnew.ask hask hr
    refine ⟨t', ?_⟩
    change (ask (AliasScope.withBudget ⟨s, par⟩ large) q).run.run _ = _
    rw [ask_withBudget, ht']
  · have hconfig := (Subject.prepared hs).config
    obtain ⟨hmode, hr⟩ := Option.ite_none_left_eq_some.1 hstart
    obtain rfl := Option.some.inj hr
    let r' : AliasRefinement := { solver := { budget := large, log := log' } }
    have hnew : Ampler { budget := s.config.aliasBudget, log } r'.solver := by
      refine ⟨rfl, ?_⟩
      rw [hconfig]
      exact hle
    obtain ⟨t', ht', -⟩ := carries_apart a b _ r' true t hnew hapart rfl
    refine ⟨r', t', if_neg hmode, ?_⟩
    change (apart (AliasScope.withBudget ⟨s, par⟩ large) a b).run.run _ = _
    rw [apart_withBudget, ht']

/-- A parallel loop that writes two globals, each through a copy of its address. -/
def loopOverTwo : List Command :=
  [.global "g" 0, .global "h" 0, .declare "main" 0, .declare "body" 1, .declare "parallel_for" 2,
    .const 0,
    .body 1, .append 1 0 (.cast 0), .append 1 0 (.store 9 8), .append 1 0 (.cast 1),
    .append 1 0 (.store 10 8), .append 1 0 (.ret none),
    .body 0, .append 0 1 (.call (.direct 2) [3, 8]), .append 0 1 (.ret none)]

/-- The two writes are apart under a budget of three steps, and so under one of a thousand. -/
theorem apart_of_larger_budget_loopOverTwo : ∃ s s' par r r' t t' u u' found,
    Subject.prepare (Builder.ofScript loopOverTwo) { aliasBudget := 3 } = .ok s ∧
    Subject.prepare (Builder.ofScript loopOverTwo) { aliasBudget := 1000 } = .ok s' ∧
    Parallelism.analyze s' (.collect s') = .ok par ∧ start s'.config default = some r' ∧
    (apart ⟨s, par⟩ ⟨1, 9, true⟩ ⟨3, 10, true⟩).run.run r = (.ok true, t) ∧
    (apart ⟨s', par⟩ ⟨1, 9, true⟩ ⟨3, 10, true⟩).run.run r' = (.ok true, t') ∧
    (ask ⟨s, par⟩ ⟨.pointsTo, 9, .global⟩).run.run { budget := 3, log := default } =
      (.ok found, u) ∧
    (ask ⟨s', par⟩ ⟨.pointsTo, 9, .global⟩).run.run { budget := 1000, log := default } =
      (.ok found, u') := by
  have heval : (Subject.prepare (Builder.ofScript loopOverTwo) { aliasBudget := 3 }).toOption.any
      (fun s => (Parallelism.analyze s (.collect s)).toOption.any fun par =>
        ((ask ⟨s, par⟩ ⟨.pointsTo, 9, .global⟩).run.run
          { budget := 3, log := default }).1.toOption.any (·.isSolved) &&
        (start s.config default).any fun r =>
          ((apart ⟨s, par⟩ ⟨1, 9, true⟩ ⟨3, 10, true⟩).run.run r).1.toOption.any (·)) = true := by
    decide +kernel
  obtain ⟨s, hs, heval⟩ := exists_of_any_toOption heval
  obtain ⟨par, hpar, heval⟩ := exists_of_any_toOption heval
  obtain ⟨hask, heval⟩ := Bool.and_eq_true_iff.1 heval
  obtain ⟨found, hfound, hsolved⟩ := exists_of_any_toOption hask
  obtain ⟨r, hstart, heval⟩ := (Option.any_eq_true _ _).1 heval
  obtain ⟨_, hapart, rfl⟩ := exists_of_any_toOption heval
  obtain ⟨s', hs', hcollect, hanalyze, -, hmore⟩ :=
    apart_of_larger_budget (Builder.ofScript loopOverTwo) {} 3 1000 s (by decide) hs
  obtain ⟨hqueries, haparts⟩ := hmore par default default
  obtain ⟨u', hu'⟩ := hqueries _ found _ (Prod.ext hfound rfl) hsolved
  obtain ⟨r', t', hr', ht'⟩ := haparts _ _ r _ hstart (Prod.ext hapart rfl)
  exact ⟨s, s', par, r, r', _, t', _, u', found, hs, hs', by rw [hcollect, hanalyze, hpar], hr',
    Prod.ext hapart rfl, ht', Prod.ext hfound rfl, hu'⟩

end AliasRefinement

end DataRace
