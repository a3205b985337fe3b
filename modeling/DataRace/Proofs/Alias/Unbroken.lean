import DataRace.Proofs.Alias.Budget

/-!
# DataRace.Proofs.Alias.Unbroken

Alias queries that are not broken off.

A query is broken off by a number out of range: when the steps left fall below
the words they are counted in, or when a projection leaves its word.  A query
starts with a positive budget and ends when that is spent, so the first never
happens; the second does not where every projection of the graph succeeds.

* `Demand.Lasts` — a part of a query that starts with steps left is not broken
  off, and goes on with steps left;
* `AliasSolver.lasts_solve` — every query lasts;
* `AliasSolver.answers_ask` — so a whole query always has an answer, if only
  that there is none;
* `AliasRefinement.completes_apart`, `AliasRefinement.completes_ruledOut` — and
  so have the questions of the refinement.
-/

namespace DataRace

/-- A part of a query that starts with steps left keeps the budget, has steps left if it ends with a
result, and otherwise ends without an answer: it is not broken off. -/
def Demand.Lasts {α : Type} (m : Demand α) : Prop :=
  ∀ s : AliasSolver, 0 < s.left → (m.run.run s).2.budget = s.budget ∧
    match (m.run.run s).1 with
    | .ok _ => 0 < (m.run.run s).2.left
    | .error e => ∃ status, e = .unanswered status

namespace Demand.Lasts

open AliasSolver

variable {α β : Type}

theorem pure (a : α) : Lasts (pure a) := fun _ hs => ⟨rfl, hs⟩

theorem throw (status : Status) : Lasts (throw (.unanswered status) : Demand α) :=
  fun _ _ => ⟨rfl, status, rfl⟩

theorem spend : Lasts AliasSolver.spend := by
  intro s hs
  have hmin : Int64.minValue.toInt < 0 := by decide
  rw [run_spend, if_neg (by omega)]
  by_cases hlast : s.left - 1 ≤ 0
  · rw [if_pos hlast]
    exact ⟨rfl, _, rfl⟩
  · rw [if_neg hlast]
    exact ⟨rfl, Int.not_le.1 hlast⟩

theorem bind {m : Demand α} {f : α → Demand β} (hm : Lasts m) (hf : ∀ a, Lasts (f a)) :
    Lasts (m >>= f) := by
  intro s hs
  have hfirst := hm s hs
  rw [run_bind]
  generalize m.run.run s = result at hfirst ⊢
  obtain ⟨e | a, t⟩ := result
  · exact hfirst
  · obtain ⟨hbudget, hstatus⟩ := hf a t hfirst.2
    exact ⟨hbudget.trans hfirst.1, hstatus⟩

theorem foldlM {f : β → α → Demand β} {xs : List α} (hf : ∀ b, ∀ x ∈ xs, Lasts (f b x)) (b : β) :
    Lasts (xs.foldlM f b) := by
  induction xs generalizing b with
  | nil => exact pure b
  | cons x xs ih =>
    rw [List.foldlM_cons]
    exact (hf b x List.mem_cons_self).bind fun c =>
      ih (fun c y hy => hf c y (List.mem_cons_of_mem x hy)) c

end Demand.Lasts

/-- Every projection by a constant that the graph leads back along succeeds. -/
def AliasScope.ProjectsAll (x : AliasScope) : Prop :=
  ∀ {n : NodeId} {e : Edge} {k : Nat}, e ∈ x.graph.inEdges n → e.kind = .field k → ∀ o,
    ∃ y, x.objs.project o k = .ok y

namespace AliasSolver

open Demand

variable {x : AliasScope} {answer : Query → Demand Reached}

theorem lasts_walk {step : NodeId → Context → Walk → Demand Walk}
    (hstep : ∀ n c w, (step n c w).Lasts) (steps : Nat) (seen : Reached) (w : Walk) :
    (walk step steps seen w).Lasts := by
  induction steps generalizing seen w with
  | zero => exact .throw _
  | succ steps ih =>
    unfold walk
    split
    · exact .pure _
    · exact .bind .spend fun _ => .bind (hstep _ _ _) fun _ => ih _ _

section

variable (hanswer : ∀ q, (answer q).Lasts)

include hanswer

theorem lasts_stepBack (hx : x.ProjectsAll) {n : NodeId} {e : Edge} (he : e ∈ x.graph.inEdges n)
    (c : Context) (w : Walk) : (stepBack x answer c w e).Lasts := by
  unfold stepBack
  cases hk : e.kind with
  | copy | call | ret | fork | join | store => exact .pure _
  | addr =>
    dsimp only
    split
    · exact .pure _
    · split <;> exact .pure _
  | load => exact .bind (.bind (hanswer _) fun _ => .pure _) fun _ => .pure _
  | field k =>
    refine .bind (hanswer _) fun base => .foldlM (fun w found _ => ?_) _
    dsimp only
    split
    · exact .pure _
    · next o _ =>
      obtain ⟨y, hy⟩ := hx he hk o
      rw [hy]
      exact .pure _
  | index => exact .bind (hanswer _) fun _ => .pure _

theorem lasts_stepForward (offset : Option Nat) (c : Context) (w : Walk) (e : Edge) :
    (stepForward x answer offset c w e).Lasts := by
  unfold stepForward
  cases e.kind with
  | addr | copy | call | ret | fork | join | load => exact .pure _
  | store => exact .bind (.bind (hanswer _) fun _ => .pure _) fun _ => .pure _
  | field k =>
    dsimp only
    split
    · exact .pure _
    · split
      · exact .bind (hanswer _) fun _ => .pure _
      · split <;> exact .pure _
  | index => exact .bind (hanswer _) fun _ => .pure _

/-- What a query consists of lasts if the answers it asks for do. -/
theorem lasts_body (hx : x.ProjectsAll) (steps : Nat) (q : Query) :
    (body x answer steps q).Lasts := by
  unfold body
  dsimp only
  split
  · refine .bind (hanswer _) fun pts => .bind (.foldlM (fun found q _ => ?_) _) fun _ => .pure _
    exact .bind (hanswer q) fun _ => .pure _
  · refine .bind (lasts_walk (fun n c w => ?_) _ _ _) fun _ => .pure _
    exact .foldlM (fun w e _ => lasts_stepForward hanswer _ c w e) _
  · split
    · refine .bind (lasts_walk (fun n c w => ?_) _ _ _) fun _ => .pure _
      exact .foldlM (fun w e he => lasts_stepBack hanswer hx he c w) _
    · exact .throw _

end

/-! ## whole queries -/

/-- **No query is broken off.** -/
theorem lasts_solve (hx : x.ProjectsAll) (steps depth : Nat) (q : Query) :
    (solve x steps depth q).Lasts := by
  induction depth generalizing q with
  | zero => exact .throw _
  | succ depth ih =>
    intro s hs
    rw [run_solve]
    by_cases hin : InScope x q
    · rw [if_pos hin, settle]
      have hnoted : (s.noted q).left = s.left ∧ (s.noted q).budget = s.budget := by
        unfold noted
        split <;> exact ⟨rfl, rfl⟩
      split
      · have hopened : (s.opened q).left = s.left ∧ (s.opened q).budget = s.budget := by
          unfold opened
          split <;> exact ⟨rfl, rfl⟩
        have hbody := lasts_body ih hx steps q (s.opened q) (hopened.1 ▸ hs)
        generalize (body x (solve x steps depth) steps q).run.run (s.opened q) = result at hbody ⊢
        obtain ⟨r, t⟩ := result
        have hclosed : (t.closed q r).left = t.left ∧ (t.closed q r).budget = t.budget := by
          unfold closed
          split
          · exact ⟨rfl, rfl⟩
          · split <;> exact ⟨rfl, rfl⟩
        dsimp only at hbody ⊢
        rw [hclosed.1, hclosed.2, ← hopened.2]
        exact hbody
      · exact ⟨hnoted.2, hnoted.1 ▸ hs⟩
      · exact ⟨hnoted.2, hnoted.1 ▸ hs⟩
      · exact ⟨hnoted.2, _, rfl⟩
    · rw [if_neg hin]
      exact ⟨rfl, _, rfl⟩

/-- A whole query with a positive budget has an answer, and the next one has the same budget. -/
theorem answers_ask (hx : x.ProjectsAll) {s : AliasSolver} (hs : 0 < s.budget) (q : Query) :
    ∃ r t, (ask x q).run.run s = (.ok r, t) ∧ 0 < t.budget := by
  have hsolve := lasts_solve hx s.limit (2 * s.limit) q s.started hs
  rw [run_ask]
  generalize (solve x s.limit (2 * s.limit) q).run.run s.started = result at hsolve ⊢
  obtain ⟨e | r, t⟩ := result
  · obtain ⟨hbudget, status, rfl⟩ := hsolve
    refine ⟨_, _, rfl, ?_⟩
    split <;> exact hbudget.symm ▸ hs
  · exact ⟨r, t, rfl, hsolve.1.symm ▸ hs⟩

end AliasSolver

/-! ## the refinement -/

/-- A step of the refinement that starts with a positive budget has a result and leaves one. -/
def Refine.Completes {α : Type} (m : Refine α) : Prop :=
  ∀ r : AliasRefinement, 0 < r.solver.budget →
    ∃ a t, m.run.run r = (.ok a, t) ∧ 0 < t.solver.budget

namespace Refine.Completes

variable {α β : Type}

theorem pure (a : α) : Completes (pure a) := fun r hr => ⟨a, r, rfl, hr⟩

theorem modify {f : AliasRefinement → AliasRefinement} (hf : ∀ r, (f r).solver = r.solver) :
    Completes (modify f) := fun r hr => ⟨(), f r, rfl, (hf r).symm ▸ hr⟩

theorem bind {m : Refine α} {f : α → Refine β} (hm : Completes m) (hf : ∀ a, Completes (f a)) :
    Completes (m >>= f) := by
  intro r hr
  obtain ⟨a, t, hrun, ht⟩ := hm r hr
  obtain ⟨b, u, hrun', hu⟩ := hf a t ht
  refine ⟨b, u, ?_, hu⟩
  rw [AliasRefinement.run_bind, hrun]
  exact hrun'

theorem foldlM {f : β → α → Refine β} (hf : ∀ b a, Completes (f b a)) (xs : List α) (b : β) :
    Completes (xs.foldlM f b) := by
  induction xs generalizing b with
  | nil => exact pure b
  | cons x xs ih =>
    rw [List.foldlM_cons]
    exact (hf b x).bind fun c => ih c

theorem mapM {f : α → Refine β} (hf : ∀ a, Completes (f a)) (xs : List α) :
    Completes (xs.mapM f) := by
  induction xs with
  | nil => exact pure []
  | cons x xs ih =>
    rw [List.mapM_cons]
    exact (hf x).bind fun y => ih.bind fun ys => pure (y :: ys)

theorem filterM {f : α → Refine Bool} (hf : ∀ a, Completes (f a)) (xs : List α) :
    Completes (xs.filterM f) := by
  have haux (acc : List α) : Completes (xs.filterAuxM f acc) := by
    induction xs generalizing acc with
    | nil => exact pure acc
    | cons x xs ih => exact (hf x).bind fun keep => ih _
  exact (haux []).bind fun ys => pure ys.reverse

end Refine.Completes

namespace AliasRefinement

open Refine

variable {x : AliasScope} (hx : x.ProjectsAll)

include hx

theorem completes_resolve (a : Access) (c : Context) : Completes (resolve x a c) := by
  intro r hr
  obtain ⟨found, t, hask, ht⟩ :=
    AliasSolver.answers_ask hx hr ⟨.pointsTo, x.graph.valueNode a.ptr, c⟩
  refine ⟨found, { r with solver := t }, ?_, ht⟩
  rw [run_resolve, hask]

theorem completes_apartUnderAll (a b : Access) (contexts : List (Context × Context)) :
    Completes (apartUnderAll x a b contexts) := by
  have hunder (c d : Context) : Completes (apartUnder x a b c d) := by
    refine (completes_resolve hx a c).bind fun s => ?_
    split
    · exact .pure _
    · refine (completes_resolve hx b d).bind fun t => ?_
      split <;> exact .pure _
  induction contexts with
  | nil => exact .pure _
  | cons pair rest ih =>
    refine (hunder pair.1 pair.2).bind fun apart => ?_
    split
    · exact ih
    · exact .pure _

/-- Asking whether two accesses never meet has an answer. -/
theorem completes_apart (a b : Access) : Completes (apart x a b) := by
  have hpoints (points : List (Point × Point)) : Completes (apartAtAll x a b points) := by
    induction points with
    | nil => exact .pure _
    | cons pair rest ih =>
      unfold apartAtAll
      split
      · exact .pure _
      · refine (completes_apartUnderAll hx a b _).bind fun apart => ?_
        split
        · exact ih
        · exact .pure _
  refine (hpoints _).bind fun refined => .bind (.modify fun r => ?_) fun _ => .pure _
  split <;> rfl

/-- Asking whether an access is ruled out at a point has an answer. -/
theorem completes_ruledOut (a : Access) (q : Point) (objs : IdSet) :
    Completes (ruledOut x a q objs) := by
  unfold ruledOut
  split
  · exact .pure _
  · exact (completes_resolve hx a _).bind fun _ => .pure _

end AliasRefinement

end DataRace
