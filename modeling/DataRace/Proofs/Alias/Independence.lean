import DataRace.Parallel.Join
import DataRace.Proofs.Alias.Standing
import DataRace.Proofs.Program.Script
import Mathlib.Data.List.Forall2

/-!
# DataRace.Proofs.Alias.Independence

What the answer of a query owes to the queries before it.

A query that is met again while it is in process counts as answered by nothing,
and the queries around it are then kept with what they found.  What is kept of
them hangs on the query that happened to be in process.  A query whose questions
never lead back to a query in process *unfolds*: it would also end if nothing
were kept and every question were asked anew (`plain`).

* `solve_of_unfolds` — a query that unfolds is answered by what it unfolds to,
  in every solver that was kept sound, whatever is in process there;
* `sound_of_solve` — every query keeps the solver sound, unfolding or not.

Together: after any queries, a query that unfolds gets the answer that a new
solver gives to it.
-/

namespace DataRace

namespace AliasSolver

variable {x : AliasScope} {s t : AliasSolver} {q z : Query} {r : Reached}

/-! ## queries of which nothing is kept -/

/-- Answer a query and keep nothing: every question in it is asked anew. -/
def plain (x : AliasScope) (steps : Nat) : Nat → Query → Demand Reached
  | 0, _ => throw (.unanswered .outOfBudget)
  | depth + 1, q => body x (plain x steps depth) steps q

/-- A query ends at a depth although nothing is kept. -/
def UnfoldsWithin (x : AliasScope) (depth : Nat) (q : Query) (r : Reached) : Prop :=
  ∃ steps s t, (plain x steps depth q).Yields s r t

/-- A query ends although nothing is kept: its questions never lead back to it. -/
def Unfolds (x : AliasScope) (q : Query) (r : Reached) : Prop := ∃ depth, UnfoldsWithin x depth q r

theorem plain_mono {steps steps' : Nat} (hsteps : steps ≤ steps') {depth : Nat} :
    ∀ {depth'}, depth ≤ depth' → ∀ {q s t r s'}, s.left ≤ t.left →
      (plain x steps depth q).Yields s r s' →
      ∃ t', (plain x steps' depth' q).Yields t r t' ∧ s'.left ≤ t'.left := by
  induction depth with
  | zero =>
    intro _ _ q s t r s' _ h
    exact absurd h Demand.not_yields_throw
  | succ depth ih =>
    intro depth' hdepth q s t r s' hst h
    obtain ⟨depth', rfl⟩ : ∃ k, depth' = k + 1 := ⟨depth' - 1, by omega⟩
    obtain ⟨d, hd⟩ := exists_body_eq_run x steps q
    rw [plain, hd] at h
    obtain ⟨t', ht', hleft⟩ := d.yields_of_yields (R := fun s t => s.left ≤ t.left)
      (fun s t hst hleft => ⟨by omega, by simp only; omega⟩)
      (fun z _ _ _ _ h => ih (Nat.le_of_succ_le_succ hdepth) h) hst h
    rw [← hd] at ht'
    exact ⟨t', yields_body_mono hsteps ht', hleft⟩

theorem UnfoldsWithin.mono {n m : Nat} (h : UnfoldsWithin x n q r) (hnm : n ≤ m) :
    UnfoldsWithin x m q r := by
  obtain ⟨steps, s, t, h⟩ := h
  obtain ⟨t', ht', -⟩ := plain_mono le_rfl hnm le_rfl h
  exact ⟨steps, s, t', ht'⟩

theorem Unfolds.unique {r r' : Reached} (h : Unfolds x q r) (h' : Unfolds x q r') : r = r' := by
  obtain ⟨n, steps, s, t, h⟩ := h
  obtain ⟨n', steps', s', t', h'⟩ := h'
  -- both runs are the run with the greater number of everything
  have hleft : s.left ≤ { s with left := max s.left s'.left }.left := le_max_left ..
  have hleft' : s'.left ≤ { s with left := max s.left s'.left }.left := le_max_right ..
  obtain ⟨_, hu, -⟩ := plain_mono (le_max_left steps steps') (le_max_left n n') hleft h
  obtain ⟨_, hu', -⟩ := plain_mono (le_max_right steps steps') (le_max_right n n') hleft' h'
  exact (hu.unique hu').1

/-! ## sound solvers -/

/-- What is kept of a query that unfolds is what it unfolds to, and no query failed. -/
structure Sound (x : AliasScope) (s : AliasSolver) : Prop where
  isFailure_eq_false : ∀ q, (s.standing q).isFailure = false
  kept_eq : ∀ q, s.standing q = .solved → ∀ r, Unfolds x q r → s.kept q = r

namespace Sound

theorem congr (hs : Sound x s) (hstanding : ∀ q, t.standing q = s.standing q)
    (hkept : ∀ q, s.standing q = .solved → t.kept q = s.kept q) : Sound x t where
  isFailure_eq_false q := by rw [hstanding, hs.isFailure_eq_false]
  kept_eq q hq r hr := by
    rw [hstanding] at hq
    rw [hkept q hq, hs.kept_eq q hq r hr]

theorem noted (hs : Sound x s) (q : Query) : Sound x (s.noted q) :=
  hs.congr (fun _ => standing_noted) fun _ _ => kept_noted

theorem opened (hs : Sound x s) (q : Query) : Sound x (s.opened q) where
  isFailure_eq_false z := by
    rw [standing_opened]
    split
    · rfl
    · exact hs.isFailure_eq_false z
  kept_eq z hz r hr := by
    rw [standing_opened] at hz
    split at hz
    · cases hz
    · next hne => rw [kept_opened hne, hs.kept_eq z hz r hr]

theorem closed (hs : Sound x s) (hr : r.status = .solved) (hq : ∀ r', Unfolds x q r' → r = r') :
    Sound x (s.closed q (.ok r)) where
  isFailure_eq_false z := by
    rw [standing_closed_ok hr]
    split
    · split <;> rfl
    · exact hs.isFailure_eq_false z
  kept_eq z hz r' hr' := by
    rw [standing_closed_ok hr] at hz
    rw [kept_closed_ok]
    by_cases hzq : z = q
    · subst hzq
      by_cases hkind : z.kind = .aliases
      · simp [hkind] at hz
      · rw [if_pos ⟨rfl, hkind⟩]
        exact hq r' hr'
    · rw [if_neg fun h => hzq h.1]
      rw [if_neg hzq] at hz
      exact hs.kept_eq z hz r' hr'

end Sound

/-- No query in process unfolds within a depth: a query that does asks none of them. -/
def Clear (x : AliasScope) (depth : Nat) (s : AliasSolver) : Prop :=
  ∀ z ∈ s.opens, ∀ r, ¬UnfoldsWithin x depth z r

theorem Clear.mono {n m : Nat} (h : Clear x m s) (hnm : n ≤ m) : Clear x n s :=
  fun z hz r hr => h z hz r (hr.mono hnm)

/-! ## queries that unfold -/

/-- With enough steps, a computation has an answer in every sound solver in which nothing in process
unfolds within a depth; then the solver is sound again, with the same queries in process. -/
def Attains {α : Type} (x : AliasScope) (depth : Nat) (F : Nat → Nat → Demand α) (a : α) : Prop :=
  ∃ cost : Nat, ∀ steps d (s : AliasSolver), cost ≤ steps → depth ≤ d → (cost : Int) ≤ s.left →
    Sound x s → Clear x depth s →
      ∃ t, (F steps d).Yields s a t ∧ s.left - cost ≤ t.left ∧ Sound x t ∧ t.opens = s.opens

namespace Attains

variable {α β : Type} {depth : Nat} {F : Nat → Nat → Demand α} {a : α}

theorem pure (a : α) : Attains x depth (fun _ _ => pure a) a :=
  ⟨0, fun _ _ s _ _ _ hs _ => ⟨s, rfl, by omega, hs, rfl⟩⟩

theorem spend : Attains x depth (fun _ _ => spend) () := by
  refine ⟨2, fun _ _ s _ _ hleft hs _ =>
    ⟨_, Demand.yields_spend_iff.2 ⟨by omega, rfl⟩, ?_, ?_, rfl⟩⟩
  · simp only
    omega
  · exact hs.congr (fun _ => rfl) fun _ _ => rfl

theorem bind {G : α → Nat → Nat → Demand β} {b : β} (hF : Attains x depth F a)
    (hG : Attains x depth (G a) b) : Attains x depth (fun n d => F n d >>= fun a => G a n d) b := by
  obtain ⟨c, hF⟩ := hF
  obtain ⟨c', hG⟩ := hG
  refine ⟨c + c', fun steps d s hsteps hd hleft hs hclear => ?_⟩
  obtain ⟨t, ht, htleft, hts, htopens⟩ := hF steps d s (by omega) hd (by omega) hs hclear
  have htclear : Clear x depth t := by
    unfold Clear
    rwa [htopens]
  obtain ⟨u, hu, huleft, hus, huopens⟩ := hG steps d t (by omega) hd (by omega) hts htclear
  exact ⟨u, Demand.yields_bind_iff.2 ⟨a, t, ht, hu⟩, by omega, hus, huopens.trans htopens⟩

end Attains

/-- A dialogue that ends when nothing is kept ends with the solver, if the solver answers. -/
theorem attains_run {α : Type} {steps depth : Nat} {d : Dialogue α} {a : α}
    (hsolve : ∀ q r, UnfoldsWithin x depth q r → Attains x depth (fun n d => solve x n d q) r) :
    ∀ {s t}, (d.run (plain x steps depth)).Yields s a t →
      Attains x depth (fun n k => d.run (solve x n k)) a := by
  induction d with
  | done b =>
    intro s t h
    rw [← (Demand.yields_pure_iff.1 h).1]
    exact .pure b
  | stop e he =>
    intro s t h
    exact absurd h Demand.not_yields_throw
  | spend next ih =>
    intro s t h
    obtain ⟨_, _, -, h⟩ := Demand.yields_bind_iff.1 h
    exact .bind (G := fun _ n k => next.run (solve x n k)) .spend (ih h)
  | ask q next ih =>
    intro s t h
    obtain ⟨r, u, hq, h⟩ := Demand.yields_bind_iff.1 h
    exact .bind (G := fun r n k => (next r).run (solve x n k))
      (hsolve q r ⟨steps, s, u, hq⟩) (ih r h)

/-- From the questions of a query to the query: one that unfolds, and does not at the depth of its
questions, is not in process and does not hinder them. -/
theorem attains_solve_of_body (steps : Nat) {depth : Nat} (h : UnfoldsWithin x (depth + 1) q r)
    (hless : ∀ r', ¬UnfoldsWithin x depth q r')
    (hbody : Attains x depth (fun n d => body x (solve x n d) steps q) r) :
    Attains x (depth + 1) (fun n d => solve x n d q) r := by
  obtain ⟨cost, hcost⟩ := hbody
  refine ⟨max cost steps, fun n d s hn hd hleft hs hclear => ?_⟩
  obtain ⟨d, rfl⟩ : ∃ k, d = k + 1 := ⟨d - 1, by omega⟩
  have hin : InScope x q := by
    obtain ⟨_, _, _, hplain⟩ := h
    exact inScope_of_yields_body hplain
  simp only [yields_solve_iff]
  cases hq : s.standing q with
  | fresh =>
    have hclear' : Clear x depth (s.opened q) := by
      intro z hz
      rw [opens_opened] at hz
      rcases hz with rfl | hz
      · exact hless
      · exact hclear.mono (Nat.le_succ depth) z hz
    have hleft' : (cost : Int) ≤ (s.opened q).left := by
      rw [left_opened]
      omega
    obtain ⟨u, hu, huleft, hus, huopens⟩ :=
      hcost n d (s.opened q) (by omega) (by omega) hleft' (hs.opened q) hclear'
    have hsolved := status_of_yields_body hu
    refine ⟨_, ⟨hin, u, yields_body_mono (by omega) hu, rfl⟩, ?_, ?_, ?_⟩
    · rw [left_opened] at huleft
      rw [left_closed]
      omega
    · exact hus.closed hsolved fun r' hr' => Unfolds.unique ⟨_, h⟩ hr'
    · exact opens_closed_opened hq hsolved huopens
  | solved =>
    refine ⟨_, ⟨hin, hs.kept_eq q hq r ⟨_, h⟩, rfl⟩, ?_, hs.noted q, opens_noted⟩
    rw [left_noted]
    omega
  | inProcess => exact absurd h (hclear q hq r)
  | outOfBudget | failed =>
    have hfail := hs.isFailure_eq_false q
    rw [hq] at hfail
    cases hfail

/-- A query that unfolds is answered by what it unfolds to. -/
theorem attains_solve {depth : Nat} : ∀ {q r}, UnfoldsWithin x depth q r →
    Attains x depth (fun n d => solve x n d q) r := by
  induction depth with
  | zero =>
    rintro q r ⟨_, _, _, h⟩
    exact absurd h Demand.not_yields_throw
  | succ depth ih =>
    intro q r h
    -- a query unfolds first at some depth, and its questions one below it
    by_cases hless : ∃ r', UnfoldsWithin x depth q r'
    · obtain ⟨r', hr'⟩ := hless
      obtain rfl := Unfolds.unique ⟨_, h⟩ ⟨_, hr'⟩
      obtain ⟨cost, hcost⟩ := ih hr'
      exact ⟨cost, fun n d s hn hd hleft hs hclear =>
        hcost n d s hn (by omega) hleft hs (hclear.mono (Nat.le_succ depth))⟩
    · obtain ⟨steps, s, t, hplain⟩ := id h
      obtain ⟨d, hd⟩ := exists_body_eq_run x steps q
      refine attains_solve_of_body steps h (not_exists.1 hless) ?_
      rw [plain, hd] at hplain
      simp only [hd]
      exact attains_run (fun _ _ => ih) hplain

/-! ## queries in a sound solver -/

/-- No query in process unfolds. -/
def AllClear (x : AliasScope) (s : AliasSolver) : Prop := ∀ depth, Clear x depth s

/-- A query that unfolds gets the answer it unfolds to, however few steps it takes. -/
theorem solve_of_unfolds {steps depth : Nat} {r₀ : Reached} (hs : Sound x s) (hclear : AllClear x s)
    (hq : Unfolds x q r₀) (h : (solve x steps depth q).Yields s r t) :
    r = r₀ ∧ Sound x t ∧ t.opens = s.opens := by
  obtain ⟨n, hn⟩ := hq
  obtain ⟨cost, hcost⟩ := attains_solve hn
  -- the run with more of everything takes the same course
  let s' := { s with left := max s.left cost }
  have hwider : Wider s s' := ⟨rfl, rfl, le_max_left ..⟩
  obtain ⟨t', ht', hwider'⟩ := solve_mono (le_max_left steps cost) (le_max_left depth n) hwider h
  have hs' : Sound x s' := hs.congr (fun _ => rfl) fun _ _ => rfl
  obtain ⟨u, hu, -, hus, huopens⟩ := hcost _ _ s' (le_max_right steps cost) (le_max_right depth n)
    (le_max_right ..) hs' (hclear n)
  obtain ⟨rfl, rfl⟩ := ht'.unique hu
  refine ⟨rfl, hus.congr hwider'.standing fun z _ => hwider'.kept z, ?_⟩
  calc t.opens = t'.opens := by simp only [opens, hwider'.standing]
    _ = s.opens := huopens

/-- Every query keeps the solver sound, and leaves the same queries in process. -/
theorem sound_of_solve {steps depth : Nat} : ∀ {q s r t}, Sound x s → AllClear x s →
    (solve x steps depth q).Yields s r t → Sound x t ∧ t.opens = s.opens := by
  induction depth with
  | zero =>
    intro q s r t _ _ h
    exact absurd h Demand.not_yields_throw
  | succ depth ih =>
    intro q s r t hs hclear h
    by_cases hq : ∃ r₀, Unfolds x q r₀
    · obtain ⟨r₀, hr₀⟩ := hq
      exact (solve_of_unfolds hs hclear hr₀ h).2
    · have hnot : ∀ r', ¬Unfolds x q r' := not_exists.1 hq
      rw [yields_solve_iff] at h
      obtain ⟨-, h⟩ := h
      split at h
      · next hfresh =>
        obtain ⟨u, hbody, rfl⟩ := h
        have hclear' : AllClear x (s.opened q) := by
          intro n z hz r' hr'
          rw [opens_opened] at hz
          rcases hz with rfl | hz
          · exact hnot r' ⟨n, hr'⟩
          · exact hclear n z hz r' hr'
        have hsolved := status_of_yields_body hbody
        obtain ⟨d, hd⟩ := exists_body_eq_run x steps q
        rw [hd] at hbody
        obtain ⟨hus, huopens⟩ := d.invariant_of_yields
          (I := fun u => Sound x u ∧ u.opens = (s.opened q).opens)
          (fun u hu => ⟨hu.1.congr (fun _ => rfl) fun _ _ => rfl, hu.2⟩)
          (fun z u r' v hu hz => by
            have huclear : AllClear x u := by
              unfold AllClear Clear
              rwa [hu.2]
            have hv := ih hu.1 huclear hz
            exact ⟨hv.1, hv.2.trans hu.2⟩)
          ⟨hs.opened q, rfl⟩ hbody
        exact ⟨hus.closed hsolved fun r' hr' => absurd hr' (hnot r'),
          opens_closed_opened hfresh hsolved huopens⟩
      · obtain ⟨-, rfl⟩ := h
        exact ⟨hs.noted q, opens_noted⟩
      · obtain ⟨-, rfl⟩ := h
        exact ⟨hs.noted q, opens_noted⟩
      · exact h.elim

/-! ## whole queries -/

/-- The solver as a whole query finds it. -/
def started (s : AliasSolver) : AliasSolver := { s with left := s.budget, active := ∅ }

/-- The steps of a walk in a whole query. -/
def limit (s : AliasSolver) : Nat := s.budget.toNat + 2

theorem run_ask (x : AliasScope) (q : Query) (s : AliasSolver) : (ask x q).run.run s =
    match (solve x s.limit (2 * s.limit) q).run.run s.started with
    | (.ok r, t) => (.ok r, t)
    | (.error (.unanswered status), t) =>
      (.ok (.ofStatus status), if status = .outOfBudget then { t with
        exhausted := t.exhausted + 1
        log := t.log.debug s!"alias query from n{q.node} ran out of budget" } else t)
    | (.error (.broken err), t) => (.error err, t) := by
  unfold ask limit started
  simp only [run_bind, run_modify, run_get, run_liftM]
  generalize (solve x (s.budget.toNat + 2) (2 * (s.budget.toNat + 2)) q).run.run _ = result
  obtain ⟨(⟨status⟩ | ⟨err⟩) | r, t⟩ := result
  · by_cases hstatus : status = .outOfBudget
    · simp only [hstatus, if_true]
      rfl
    · simp only [hstatus, if_false]
      rfl
  · rfl
  · rfl

theorem ask_of_yields (h : (solve x s.limit (2 * s.limit) q).Yields s.started r t) :
    (ask x q).run.run s = (.ok r, t) := by
  rw [run_ask, h]

theorem yields_of_ask (h : (ask x q).run.run s = (.ok r, t)) (hr : r.isSolved) :
    (solve x s.limit (2 * s.limit) q).Yields s.started r t := by
  rw [run_ask] at h
  split at h
  · next r' t' hrun =>
    cases h
    exact hrun
  · next status t' hrun =>
    cases h
    have hfailure := isFailure_of_solve _ _ _ _ hrun
    have hstatus : status = .solved := of_decide_eq_true hr
    rw [hstatus] at hfailure
    cases hfailure
  · cases h

/-- A sound solver between two whole queries. -/
structure Rested (x : AliasScope) (s : AliasSolver) : Prop where
  sound : Sound x s
  opens : s.opens = ∅

theorem Rested.started (h : Rested x s) : Sound x s.started ∧ s.started.opens = ∅ := by
  have hstanding (z : Query) : s.started.standing z = s.standing z := by
    have hz : z ∉ s.opens := by
      rw [h.opens]
      exact Set.notMem_empty z
    simp only [AliasSolver.opens, Set.mem_ofPred_eq, standing] at hz
    simp only [AliasSolver.started, standing]
    by_cases hkind : z.kind = .aliases
    · simp_all
    · simp only [hkind, if_false]
  refine ⟨h.sound.congr hstanding fun _ _ => rfl, ?_⟩
  simp only [AliasSolver.opens, hstanding]
  exact h.opens

theorem rested_new (budget : Int) (log : Log) : Rested x { budget, log } := by
  have hstanding (z : Query) : ({ budget, log } : AliasSolver).standing z = .fresh := by
    simp [standing, Cache.status]
  refine ⟨⟨fun q => ?_, fun q hq => ?_⟩, ?_⟩
  · rw [hstanding]
    rfl
  · rw [hstanding] at hq
    cases hq
  · simp [AliasSolver.opens, hstanding]

/-- A whole query leaves the solver rested, and is answered by what it unfolds to. -/
theorem Rested.ask (hs : Rested x s) (h : (ask x q).run.run s = (.ok r, t)) (hr : r.isSolved) :
    Rested x t ∧ ∀ r₀, Unfolds x q r₀ → r = r₀ := by
  have hyields := yields_of_ask h hr
  have hstarted := hs.started
  have hclear : AllClear x s.started := by
    unfold AllClear Clear
    rw [hstarted.2]
    intro _ z hz
    cases hz
  have hkeep := sound_of_solve hstarted.1 hclear hyields
  exact ⟨⟨hkeep.1, hkeep.2.trans hstarted.2⟩,
    fun r₀ hr₀ => (solve_of_unfolds hstarted.1 hclear hr₀ hyields).1⟩

/-- Whole queries one after the other are each answered by what they unfold to. -/
theorem Rested.forall₂_ask {ι : Type} (query : ι → Query) {is : List ι} {rs : List Reached}
    (hs : Rested x s) (h : (is.mapM fun i => AliasSolver.ask x (query i)).run.run s = (.ok rs, t))
    (hrs : ∀ r ∈ rs, r.isSolved) :
    List.Forall₂ (fun i r => ∀ r₀, Unfolds x (query i) r₀ → r = r₀) is rs := by
  induction is generalizing rs s with
  | nil =>
    cases h
    exact .nil
  | cons i is ih =>
    rw [List.mapM_cons, run_bind] at h
    split at h
    · next r u hfirst =>
      rw [run_bind] at h
      split at h
      · next rs' v hrest =>
        cases h
        obtain ⟨hu, hr⟩ := hs.ask hfirst (hrs r List.mem_cons_self)
        exact .cons hr (ih hu hrest fun r' hr' => hrs r' (List.mem_cons_of_mem r hr'))
      · cases h
    · cases h

/-- A new solver with steps enough answers a query by what it unfolds to. -/
theorem ask_new_of_unfolds (log : Log) (h : Unfolds x q r) :
    ∃ least : Int, ∀ budget ≥ least, ∃ t, (ask x q).run.run { budget, log } = (.ok r, t) := by
  obtain ⟨depth, hdepth⟩ := h
  obtain ⟨cost, hcost⟩ := attains_solve hdepth
  refine ⟨max cost depth, fun budget hbudget => ?_⟩
  have hnew := (rested_new (x := x) budget log).started
  have hclear : Clear x depth ({ budget, log } : AliasSolver).started := by
    unfold Clear
    rw [hnew.2]
    intro z hz
    cases hz
  obtain ⟨t, ht, -⟩ := hcost ({ budget, log } : AliasSolver).limit
    (2 * ({ budget, log } : AliasSolver).limit) _ (by simp only [limit]; omega)
    (by simp only [limit]; omega) (by simp only [started]; omega) hnew.1 hclear
  exact ⟨t, ask_of_yields ht⟩

/-- Two new solvers do not disagree, whatever their budgets. -/
theorem ask_new_unique {budget budget' : Int} {log : Log} {r r' : Reached} {t t' : AliasSolver}
    (h : (ask x q).run.run { budget, log } = (.ok r, t)) (hr : r.isSolved)
    (h' : (ask x q).run.run { budget := budget', log } = (.ok r', t')) (hr' : r'.isSolved) :
    r = r' := by
  let s : AliasSolver := { budget, log, left := max budget budget' }
  have hwider : Wider ({ budget, log } : AliasSolver).started s := ⟨rfl, rfl, le_max_left ..⟩
  have hwider' : Wider ({ budget := budget', log } : AliasSolver).started s :=
    ⟨rfl, rfl, le_max_right ..⟩
  obtain ⟨u, hu, -⟩ := solve_mono (le_max_left _ _) (le_max_left _ _) hwider (yields_of_ask h hr)
  obtain ⟨u', hu', -⟩ :=
    solve_mono (le_max_right _ _) (le_max_right _ _) hwider' (yields_of_ask h' hr')
  exact (hu.unique hu').1

/-- Points-to queries on one solver that are all solved: each that unfolds has the answer that a new
solver gives with steps enough, and there is no other solved answer of a new solver. -/
theorem pointsTo_independent {x : AliasScope} {budget : Int} {log : Log}
    {qs : List (NodeId × Context)} {rs : List Reached} {t : AliasSolver}
    (hrun : (qs.mapM fun q => pointsTo x q.1 q.2).run.run { budget, log } = (.ok rs, t))
    (hsolved : ∀ r ∈ rs, r.isSolved) :
    List.Forall₂ (fun q r => (∃ r₀, Unfolds x ⟨.pointsTo, q.1, q.2⟩ r₀) →
      (∃ least : Int, ∀ budget ≥ least, ∃ t,
        (pointsTo x q.1 q.2).run.run { budget, log } = (.ok r, t)) ∧
      ∀ budget r' t, (pointsTo x q.1 q.2).run.run { budget, log } = (.ok r', t) → r'.isSolved →
        r' = r) qs rs := by
  have hanswers := (rested_new (x := x) budget log).forall₂_ask
    (fun q : NodeId × Context => ⟨.pointsTo, q.1, q.2⟩) hrun hsolved
  refine hanswers.imp fun q r hr => ?_
  rintro ⟨r₀, hr₀⟩
  obtain rfl := hr r₀ hr₀
  refine ⟨ask_new_of_unfolds log hr₀, fun budget' r' t' hnew hr' => ?_⟩
  exact ((rested_new budget' log).ask hnew hr').2 r hr₀

/-- A pointer to a field goes through memory. -/
def storedField : List Command :=
  [.declare "main" 0, .const 0, .body 0, .append 0 0 (.alloc false 2), .append 0 0 (.alloc false 0),
    .append 0 0 (.project 2 (some 1) none), .append 0 0 (.store 3 4), .append 0 0 (.load 3),
    .append 0 0 (.ret none)]

/-- After a query for the pointer, the pointer read from memory has the answer of a new solver. -/
theorem pointsTo_independent_storedField : ∃ subject par r₁ r₂ t,
    Subject.prepare (Builder.ofScript storedField) {} = .ok subject ∧
    Parallelism.analyze subject (.collect subject) = .ok par ∧
    ([(4, Context.global), (5, .global)].mapM fun q => pointsTo ⟨subject, par⟩ q.1 q.2).run.run
      { budget := 1000, log := default } = (.ok [r₁, r₂], t) ∧ r₂.holds 9 .global ∧
    ∃ least : Int, ∀ budget ≥ least, ∃ t,
      (pointsTo ⟨subject, par⟩ 5 .global).run.run { budget, log := default } = (.ok r₂, t) := by
  have heval : (Subject.prepare (Builder.ofScript storedField) {}).toOption.any (fun subject =>
      (Parallelism.analyze subject (.collect subject)).toOption.any fun par =>
        ((plain ⟨subject, par⟩ 20 20 ⟨.pointsTo, 5, .global⟩).run.run
          { budget := 0, log := default, left := 1000 }).1.toOption.any fun _ =>
        (([(4, Context.global), (5, .global)].mapM fun q =>
          pointsTo ⟨subject, par⟩ q.1 q.2).run.run
            { budget := 1000, log := default }).1.toOption.any
            fun rs => rs.length == 2 && rs.all (·.isSolved) &&
              (rs.getD 1 default).holds 9 .global) = true := by
    decide +kernel
  obtain ⟨subject, hsubject, heval⟩ := exists_of_any_toOption heval
  obtain ⟨par, hpar, heval⟩ := exists_of_any_toOption heval
  obtain ⟨r, hplain, heval⟩ := exists_of_any_toOption heval
  obtain ⟨rs, hshared, heval⟩ := exists_of_any_toOption heval
  simp only [Bool.and_eq_true, beq_iff_eq, List.all_eq_true] at heval
  obtain ⟨⟨hlength, hsolved⟩, hfield⟩ := heval
  obtain ⟨r₁, r₂, rfl⟩ := List.length_eq_two.1 hlength
  have hboth := pointsTo_independent (Prod.ext hshared rfl) hsolved
  rcases hboth with _ | ⟨-, _ | ⟨hsecond, -⟩⟩
  obtain ⟨hleast, -⟩ := hsecond ⟨r, 20, 20, _, _, Prod.ext hplain rfl⟩
  exact ⟨subject, par, r₁, r₂, _, hsubject, hpar, Prod.ext hshared rfl, hfield, hleast⟩

/-- Two pointers that are advanced in a loop, each by a field of the other. -/
def crossedFields : List Command :=
  [.declare "main" 0, .const 0, .body 0, .block 0, .block 0,
    .append 0 0 (.alloc false 2), .append 0 0 (.alloc false 2), .append 0 0 (.jump 1),
    .append 0 1 (.phi [(2, 0)]), .append 0 1 (.phi [(3, 0)]),
    .append 0 1 (.project 5 (some 1) none), .append 0 1 (.project 4 (some 1) none),
    .incoming 4 6 1, .incoming 5 7 1,
    .append 0 1 (.branch 1 1 2), .append 0 2 (.ret none)]

/-- Of queries that come back to a query in process, the first to be asked finds more. -/
theorem pointsTo_dependent_crossedFields :
    ¬∀ (p : Program) (config : Config) (subject : Subject) (par : Parallelism) (budget : Int)
      (log : Log) (qs : List (NodeId × Context)) (rs : List Reached) (t : AliasSolver),
      p.Finished → Subject.prepare p config = .ok subject →
      Parallelism.analyze subject (.collect subject) = .ok par →
      (qs.mapM fun q => pointsTo ⟨subject, par⟩ q.1 q.2).run.run { budget, log } = (.ok rs, t) →
      (∀ r ∈ rs, r.isSolved) →
      List.Forall₂ (fun q r => ∃ budget r' t',
        (pointsTo ⟨subject, par⟩ q.1 q.2).run.run { budget, log } = (.ok r', t') ∧ r'.isSolved ∧
        ∀ n c, r'.holds n c = r.holds n c) qs rs := by
  intro hall
  have hfin : (Builder.ofScript crossedFields).Finished :=
    Builder.finished_ofScript (by decide +kernel)
  have heval : (Subject.prepare (Builder.ofScript crossedFields) {}).toOption.any (fun subject =>
      (Parallelism.analyze subject (.collect subject)).toOption.any fun par =>
        ((pointsTo ⟨subject, par⟩ 5 .global).run.run
          { budget := 1000, log := default }).1.toOption.any fun r =>
        (([(4, Context.global), (5, .global)].mapM fun q =>
          pointsTo ⟨subject, par⟩ q.1 q.2).run.run
            { budget := 1000, log := default }).1.toOption.any
            fun rs => rs.length == 2 && rs.all (·.isSolved) && r.isSolved &&
              (rs.getD 1 default).holds 11 .global != r.holds 11 .global) = true := by
    decide +kernel
  obtain ⟨subject, hsubject, heval⟩ := exists_of_any_toOption heval
  obtain ⟨par, hpar, heval⟩ := exists_of_any_toOption heval
  obtain ⟨r, hnew, heval⟩ := exists_of_any_toOption heval
  obtain ⟨rs, hshared, heval⟩ := exists_of_any_toOption heval
  simp only [Bool.and_eq_true, beq_iff_eq, List.all_eq_true, bne_iff_ne] at heval
  obtain ⟨⟨⟨hlength, hsolved⟩, hr⟩, hne⟩ := heval
  obtain ⟨r₁, r₂, rfl⟩ := List.length_eq_two.1 hlength
  have hboth := hall _ _ subject par 1000 default _ [r₁, r₂] _ hfin hsubject hpar
    (Prod.ext hshared rfl) hsolved
  rcases hboth with _ | ⟨-, _ | ⟨⟨budget, r', t', hask, hr', hsame⟩, -⟩⟩
  obtain rfl := ask_new_unique hask hr' (Prod.ext hnew rfl) hr
  exact hne (hsame 11 .global).symm

end AliasSolver

end DataRace
