import DataRace.Alias.Solver
import Mathlib.Tactic.Common

/-!
# DataRace.Proofs.Alias.Dialogue

What a query does between the questions it asks.

A query walks the graph, takes steps of the budget, and asks other queries on
the way.  Who answers them is a parameter of the walk: the same walk runs on a
solver that keeps its answers and on one that does not.  So a walk is a
`Dialogue`, a tree of questions and steps, and a run of it is an interpretation
of the tree.  What two ways to answer have in common is then proved once, by
induction on the tree.

* `Demand.Yields` — a part of a query comes to an end; `yields_bind_iff` and the
  like take it apart;
* `Speaks` — a part of a query is a dialogue with whoever answers; `exists_body_eq_run`
  says so of a whole query;
* `yields_body_mono` — a query that ends within some steps takes no others when
  it may take more.
-/

namespace DataRace

/-! ## parts of queries that end -/

namespace AliasSolver

section Run

variable {ε α β : Type} (s : AliasSolver)

-- for parts of queries and for whole queries alike

theorem run_pure (a : α) : (pure a : ExceptT ε (StateM AliasSolver) α).run.run s = (.ok a, s) := rfl

theorem run_get : (get : ExceptT ε (StateM AliasSolver) AliasSolver).run.run s = (.ok s, s) := rfl

theorem run_modify (f : AliasSolver → AliasSolver) :
    (modify f : ExceptT ε (StateM AliasSolver) Unit).run.run s = (.ok (), f s) := rfl

theorem run_liftM (m : StateM AliasSolver α) :
    (liftM m : ExceptT ε (StateM AliasSolver) α).run.run s = (.ok (m.run s).1, (m.run s).2) := rfl

theorem run_bind (m : ExceptT ε (StateM AliasSolver) α) (f : α → ExceptT ε (StateM AliasSolver) β) :
    (m >>= f).run.run s = match m.run.run s with
      | (.ok a, t) => (f a).run.run t
      | (.error e, t) => (.error e, t) := by
  rw [ExceptT.run_bind, StateT.run_bind]
  obtain ⟨r, t⟩ := m.run.run s
  cases r <;> rfl

end Run

end AliasSolver

/-- A part of a query ends with a result. -/
def Demand.Yields {α : Type} (m : Demand α) (s : AliasSolver) (a : α) (t : AliasSolver) : Prop :=
  m.run.run s = (.ok a, t)

namespace Demand

open AliasSolver

variable {α β : Type} {m : Demand α} {s t u : AliasSolver} {a b : α}

theorem Yields.unique (h : Yields m s a t) (h' : Yields m s b u) : a = b ∧ t = u := by
  have heq := h.symm.trans h'
  rw [Prod.mk.injEq, Except.ok.injEq] at heq
  exact heq

theorem run_throw (e : Stop) (s : AliasSolver) : (throw e : Demand α).run.run s = (.error e, s) :=
  rfl

theorem run_tryCatch (m : Demand α) (handle : Stop → Demand α) (s : AliasSolver) :
    (tryCatch m handle).run.run s = match m.run.run s with
      | (.ok a, t) => (.ok a, t)
      | (.error e, t) => (handle e).run.run t := by
  simp only [tryCatch, tryCatchThe, MonadExceptOf.tryCatch, ExceptT.tryCatch, ExceptT.run_mk]
  rw [StateT.run_bind, show StateT.run m s = m.run.run s from rfl]
  obtain ⟨r, t⟩ := m.run.run s
  cases r <;> rfl

theorem yields_pure_iff : Yields (pure a) s b t ↔ a = b ∧ s = t := by
  rw [Yields, run_pure, Prod.mk.injEq, Except.ok.injEq]

theorem not_yields_throw {e : Stop} : ¬Yields (throw e : Demand α) s a t := by
  rw [Yields, run_throw]
  intro h
  cases h

theorem yields_bind_iff {f : α → Demand β} {b : β} :
    Yields (m >>= f) s b u ↔ ∃ a t, Yields m s a t ∧ Yields (f a) t b u := by
  simp only [Yields, run_bind]
  obtain ⟨r, t⟩ := m.run.run s
  cases r with
  | error e =>
    constructor
    · intro h
      cases h
    · rintro ⟨_, _, h, -⟩
      cases h
  | ok a =>
    constructor
    · intro h
      exact ⟨a, t, rfl, h⟩
    · rintro ⟨a', t', h, h'⟩
      cases h
      exact h'

theorem run_spend (s : AliasSolver) : AliasSolver.spend.run.run s =
    if s.left ≤ Int64.minValue.toInt then (.error (.broken .outOfRange), s)
    else if s.left - 1 ≤ 0 then
      (.error (.unanswered .outOfBudget), { s with left := s.left - 1 })
    else (.ok (), { s with left := s.left - 1 }) := by
  unfold AliasSolver.spend
  simp only [run_bind, run_get]
  by_cases hlow : s.left ≤ Int64.minValue.toInt
  · rw [if_pos hlow, if_pos hlow]
    rfl
  · rw [if_neg hlow, if_neg hlow, run_bind]
    by_cases hleft : s.left - 1 ≤ 0
    · rw [if_pos hleft, if_pos hleft]
      rfl
    · rw [if_neg hleft, if_neg hleft]
      rfl

theorem yields_spend_iff {v : Unit} :
    Yields AliasSolver.spend s v t ↔ 1 < s.left ∧ t = { s with left := s.left - 1 } := by
  have hmin : Int64.minValue.toInt < 0 := by decide
  rw [Yields, run_spend]
  split
  · exact ⟨nofun, fun h => by omega⟩
  · split
    · exact ⟨nofun, fun h => by omega⟩
    · rw [Prod.mk.injEq]
      exact ⟨fun h => ⟨by omega, h.2.symm⟩, fun h => ⟨rfl, h.2.symm⟩⟩

end Demand

/-! ## dialogues -/

/-- The end of a query is one without an answer. -/
def Stop.IsFailure : Stop → Prop
  | .unanswered status => status.isFailure
  | .broken _ => True

/-- A part of a query as the steps and the questions it consists of. -/
inductive Dialogue (α : Type) where
  | done (a : α)
  | stop (e : Stop) (he : e.IsFailure)
  | spend (next : Dialogue α)
  | ask (q : Query) (next : Reached → Dialogue α)

namespace Dialogue

variable {α β : Type}

/-- Hold a dialogue with someone who answers. -/
def run (answer : Query → Demand Reached) : Dialogue α → Demand α
  | done a => pure a
  | stop e _ => throw e
  | spend next => do AliasSolver.spend; run answer next
  | ask q next => do run answer (next (← answer q))

/-- One dialogue after another. -/
def bind (f : α → Dialogue β) : Dialogue α → Dialogue β
  | done a => f a
  | stop e he => stop e he
  | spend next => spend (bind f next)
  | ask q next => ask q fun r => bind f (next r)

theorem run_bind (answer : Query → Demand Reached) (d : Dialogue α) (f : α → Dialogue β) :
    (d.bind f).run answer = d.run answer >>= fun a => (f a).run answer := by
  induction d with
  | done a => simp only [bind, run, pure_bind]
  | stop e he => rfl
  | spend next ih => simp only [bind, run, ih, bind_assoc]
  | ask q next ih => simp only [bind, run, ih, bind_assoc]

/-- A dialogue is broken off only by failures, if the answers are. -/
theorem isFailure_of_run {answer : Query → Demand Reached}
    (hanswer : ∀ q s e t, (answer q).run.run s = (.error e, t) → e.IsFailure) {d : Dialogue α} :
    ∀ {s e t}, (d.run answer).run.run s = (.error e, t) → e.IsFailure := by
  induction d with
  | done a =>
    intro s e t h
    cases h
  | stop e he =>
    intro s e' t h
    cases h
    exact he
  | spend next ih =>
    intro s e t h
    rw [run, AliasSolver.run_bind, Demand.run_spend] at h
    split at h
    · exact ih h
    · next e' u hspend =>
      cases h
      split at hspend
      · cases hspend
        trivial
      · split at hspend
        · cases hspend
          rfl
        · cases hspend
  | ask q next ih =>
    intro s e t h
    rw [run, AliasSolver.run_bind] at h
    split at h
    · exact ih _ h
    · next e' u heq =>
      cases h
      exact hanswer q _ _ _ heq

/-- A dialogue that ends with one answerer ends with another who answers the same: whatever relates
the two solvers, if every answer and every step keeps it. -/
theorem yields_of_yields {answer answer' : Query → Demand Reached}
    {R : AliasSolver → AliasSolver → Prop}
    (hspend : ∀ s t, R s t → 1 < s.left →
      1 < t.left ∧ R { s with left := s.left - 1 } { t with left := t.left - 1 })
    (hanswer : ∀ q s t r s', R s t → (answer q).Yields s r s' →
      ∃ t', (answer' q).Yields t r t' ∧ R s' t')
    {d : Dialogue α} {a : α} : ∀ {s t s'}, R s t → (d.run answer).Yields s a s' →
      ∃ t', (d.run answer').Yields t a t' ∧ R s' t' := by
  induction d with
  | done b =>
    intro s t s' hrel h
    obtain ⟨rfl, rfl⟩ := Demand.yields_pure_iff.1 h
    exact ⟨t, rfl, hrel⟩
  | stop e he =>
    intro s t s' hrel h
    exact absurd h Demand.not_yields_throw
  | spend next ih =>
    intro s t s' hrel h
    obtain ⟨_, u, hu, h⟩ := Demand.yields_bind_iff.1 h
    obtain ⟨hleft, rfl⟩ := Demand.yields_spend_iff.1 hu
    obtain ⟨hleft', hrel'⟩ := hspend s t hrel hleft
    obtain ⟨t', ht', hend⟩ := ih hrel' h
    exact ⟨t', Demand.yields_bind_iff.2 ⟨(), _, Demand.yields_spend_iff.2 ⟨hleft', rfl⟩, ht'⟩, hend⟩
  | ask q next ih =>
    intro s t s' hrel h
    obtain ⟨r, u, hu, h⟩ := Demand.yields_bind_iff.1 h
    obtain ⟨u', hu', hrel'⟩ := hanswer q s t r u hrel hu
    obtain ⟨t', ht', hend⟩ := ih r hrel' h
    exact ⟨t', Demand.yields_bind_iff.2 ⟨r, u', hu', ht'⟩, hend⟩

/-- What every answer and every step keeps, a dialogue keeps. -/
theorem invariant_of_yields {answer : Query → Demand Reached} {I : AliasSolver → Prop}
    (hspend : ∀ s, I s → I { s with left := s.left - 1 })
    (hanswer : ∀ q s r t, I s → (answer q).Yields s r t → I t)
    {d : Dialogue α} {a : α} {s t : AliasSolver} (hs : I s) (h : (d.run answer).Yields s a t) :
    I t := by
  obtain ⟨_, -, -, ht⟩ := yields_of_yields (R := fun u v => u = v ∧ I u)
    (fun u _ huv hleft => ⟨huv.1 ▸ hleft, huv.1 ▸ rfl, hspend u huv.2⟩)
    (fun q u _ r u' huv hq => ⟨u', huv.1 ▸ hq, rfl, hanswer q u r u' huv.2 hq⟩) ⟨rfl, hs⟩ h
  exact ht

end Dialogue

/-- A part of a query is a dialogue with whoever answers. -/
def Speaks {α : Type} (F : (Query → Demand Reached) → Demand α) : Prop :=
  ∃ d : Dialogue α, ∀ answer, F answer = d.run answer

namespace Speaks

variable {α β : Type}

theorem pure (a : α) : Speaks fun _ => pure a := ⟨.done a, fun _ => rfl⟩

theorem throw {e : Stop} (he : e.IsFailure) : Speaks (α := α) fun _ => throw e :=
  ⟨.stop e he, fun _ => rfl⟩

theorem ask (q : Query) : Speaks fun answer => answer q :=
  ⟨.ask q .done, fun _ => by simp only [Dialogue.run, bind_pure]⟩

theorem spend : Speaks fun _ => AliasSolver.spend :=
  ⟨.spend (.done ()), fun _ => by simp only [Dialogue.run, bind_pure_unit]⟩

theorem bind {F : (Query → Demand Reached) → Demand α} {G : α → (Query → Demand Reached) → Demand β}
    (hF : Speaks F) (hG : ∀ a, Speaks (G a)) :
    Speaks fun answer => F answer >>= fun a => G a answer := by
  obtain ⟨d, hd⟩ := hF
  choose e he using hG
  refine ⟨d.bind e, fun answer => ?_⟩
  simp only [Dialogue.run_bind, hd, he]

theorem foldlM {F : (Query → Demand Reached) → β → α → Demand β}
    (hF : ∀ b a, Speaks fun answer => F answer b a)
    (xs : List α) (b : β) : Speaks fun answer => xs.foldlM (F answer) b := by
  induction xs generalizing b with
  | nil => exact pure b
  | cons x xs ih =>
    simp only [List.foldlM_cons]
    exact bind (hF b x) ih

end Speaks

namespace AliasSolver

/-! ## queries are dialogues -/

theorem speaks_walk {step : (Query → Demand Reached) → NodeId → Context → Walk → Demand Walk}
    (hstep : ∀ n c w, Speaks fun answer => step answer n c w) (steps : Nat) (seen : Reached)
    (w : Walk) : Speaks fun answer => walk (step answer) steps seen w := by
  induction steps generalizing seen w with
  | zero => exact .throw rfl
  | succ steps ih =>
    simp only [walk]
    split
    · exact .pure _
    · exact .bind .spend fun _ => .bind (hstep _ _ _) fun _ => ih _ _

theorem speaks_stepBack (x : AliasScope) (c : Context) (w : Walk) (e : Edge) :
    Speaks fun answer => stepBack x answer c w e := by
  unfold stepBack
  cases e.kind with
  | copy | call | ret | fork | join | store => exact .pure _
  | addr =>
    dsimp only
    split
    · exact .pure _
    · split <;> exact .pure _
  | load => exact .bind (.bind (.ask _) fun _ => .pure _) fun _ => .pure _
  | field k =>
    refine .bind (.ask _) fun base => .foldlM (fun w n => ?_) _ _
    dsimp only
    split
    · exact .pure _
    · split
      · exact .pure _
      · exact .throw trivial
  | index => exact .bind (.ask _) fun _ => .pure _

theorem speaks_takeBack (x : AliasScope) (n : NodeId) (c : Context) (w : Walk) :
    Speaks fun answer => takeBack x answer n c w :=
  .foldlM (speaks_stepBack x c) _ _

theorem speaks_stepForward (x : AliasScope) (offset : Option Nat) (c : Context) (w : Walk)
    (e : Edge) : Speaks fun answer => stepForward x answer offset c w e := by
  unfold stepForward
  cases e.kind with
  | addr | copy | call | ret | fork | join | load => exact .pure _
  | store => exact .bind (.bind (.ask _) fun _ => .pure _) fun _ => .pure _
  | field k =>
    dsimp only
    split
    · exact .pure _
    · split
      · exact .bind (.ask _) fun _ => .pure _
      · split <;> exact .pure _
  | index => exact .bind (.ask _) fun _ => .pure _

theorem speaks_takeForward (x : AliasScope) (offset : Option Nat) (n : NodeId) (c : Context)
    (w : Walk) : Speaks fun answer => takeForward x answer offset n c w :=
  .foldlM (speaks_stepForward x offset c) _ _

theorem speaks_collectAliases (x : AliasScope) (n : NodeId) (c : Context) :
    Speaks fun answer => collectAliases x answer n c :=
  .bind (.ask _) fun _ =>
    .bind (.foldlM (fun _ _ => .bind (.ask _) fun _ => .pure _) _ _) fun _ => .pure _

/-- What a query consists of, apart from what is kept of it. -/
def body (x : AliasScope) (answer : Query → Demand Reached) (steps : Nat) (q : Query) :
    Demand Reached :=
  let start : Walk := { work := [(q.node, q.ctx)] }
  match q.kind with
  | .aliases => collectAliases x answer q.node q.ctx
  | .flowsTo offset => do
    return { ← walk (takeForward x answer offset) steps ∅ start with status := .solved }
  | .pointsTo => do
    if q.node < x.graph.nodeCount then
      return { ← walk (takeBack x answer) steps ∅ start with status := .solved }
    else
      throw (.unanswered .failed)

/-- A query is a dialogue with whoever answers. -/
theorem exists_body_eq_run (x : AliasScope) (steps : Nat) (q : Query) :
    ∃ d : Dialogue Reached, ∀ answer, body x answer steps q = d.run answer := by
  change Speaks fun answer => body x answer steps q
  unfold body
  split
  · exact speaks_collectAliases x _ _
  · exact .bind (speaks_walk (speaks_takeForward x _) _ _ _) fun _ => .pure _
  · split
    · exact .bind (speaks_walk (speaks_takeBack x) _ _ _) fun _ => .pure _
    · exact .throw rfl

theorem status_of_yields_body {x : AliasScope} {answer : Query → Demand Reached} {steps : Nat}
    {q : Query} {r : Reached} {s t : AliasSolver} (h : (body x answer steps q).Yields s r t) :
    r.status = .solved := by
  unfold body at h
  split at h
  · obtain ⟨_, _, -, h⟩ := Demand.yields_bind_iff.1 h
    obtain ⟨_, _, -, h⟩ := Demand.yields_bind_iff.1 h
    rw [← (Demand.yields_pure_iff.1 h).1]
  · obtain ⟨_, _, -, h⟩ := Demand.yields_bind_iff.1 h
    rw [← (Demand.yields_pure_iff.1 h).1]
  · split at h
    · obtain ⟨_, _, -, h⟩ := Demand.yields_bind_iff.1 h
      rw [← (Demand.yields_pure_iff.1 h).1]
    · exact absurd h Demand.not_yields_throw

/-! ## more steps -/

theorem yields_walk_mono {step : NodeId → Context → Walk → Demand Walk} {n m : Nat} (hnm : n ≤ m)
    {seen r : Reached} {w : Walk} {s t : AliasSolver} (h : (walk step n seen w).Yields s r t) :
    (walk step m seen w).Yields s r t := by
  induction n generalizing m seen w s with
  | zero => exact absurd h Demand.not_yields_throw
  | succ n ih =>
    obtain ⟨m, rfl⟩ : ∃ k, m = k + 1 := ⟨m - 1, by omega⟩
    simp only [walk] at h ⊢
    split at h
    · exact h
    · obtain ⟨_, u, hspend, h⟩ := Demand.yields_bind_iff.1 h
      obtain ⟨w', v, hstep, h⟩ := Demand.yields_bind_iff.1 h
      exact Demand.yields_bind_iff.2 ⟨_, u, hspend,
        Demand.yields_bind_iff.2 ⟨w', v, hstep, ih (by omega) h⟩⟩

theorem yields_body_mono {x : AliasScope} {answer : Query → Demand Reached} {n m : Nat}
    (hnm : n ≤ m) {q : Query} {r : Reached} {s t : AliasSolver}
    (h : (body x answer n q).Yields s r t) : (body x answer m q).Yields s r t := by
  unfold body at h ⊢
  split at h
  · exact h
  · obtain ⟨a, u, hwalk, hend⟩ := Demand.yields_bind_iff.1 h
    exact Demand.yields_bind_iff.2 ⟨a, u, yields_walk_mono hnm hwalk, hend⟩
  · split at h
    · next hin =>
      obtain ⟨a, u, hwalk, hend⟩ := Demand.yields_bind_iff.1 h
      rw [if_pos hin]
      exact Demand.yields_bind_iff.2 ⟨a, u, yields_walk_mono hnm hwalk, hend⟩
    · exact absurd h Demand.not_yields_throw

end AliasSolver

end DataRace
