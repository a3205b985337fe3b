import DataRace.Proofs.Alias.Stable
import Mathlib.Logic.Relation

/-!
# DataRace.Proofs.Alias.Arising

The contexts that arise in alias queries.

A context may arise in a query that ends without an answer, and leave no trace.
So a query is followed in steps: a place is taken up, an edge is followed, a
question of an alias query is answered.  At every stage there are contexts of
places to come, of places passed and of what is found, and in a question that
is asked at a stage others arise.  A stable property passes from the contexts
that are asked about to all of them.

* `run_body_of_stages`, `exists_step_or_ends` — the stages of a query are those
  that its body goes through; `exists_follow_eq` — what is asked at them;
* `Arises`, `ArisesIn` — a context arises in a query, or in some one after the other;
* `of_arises`, `of_arisesIn` — stable properties;
* `contexts_finite` — contexts repeat no site, and there are finitely many.
-/

namespace DataRace

open Std

namespace AliasSolver

/-! ## queries under way -/

/-- A query that was begun, apart from the solver. -/
inductive Stage where
  /-- A walk: the steps it may still take, the places it took up, the walk as it stands, the context
  of the place taken up last, and the edges that are still to be followed from there. -/
  | walking (steps : Nat) (seen : Reached) (w : Walk) (c : Context) (pending : List Edge)
  /-- An alias query that has asked nothing yet. -/
  | asking
  /-- An alias query: the pointers found, and the questions that are still to be asked. -/
  | collecting (found : Reached) (pending : List Query)

/-- The question that is asked at an edge. -/
def asksAt : Query.Kind → Context → Edge → Option Query
  | .flowsTo offset, c, e =>
    match e.kind with
    | .store => some ⟨.aliases, e.dst, c⟩
    | .field k => if offset = some k then some ⟨.flowsTo none, e.dst, c⟩ else none
    | .index => some ⟨.flowsTo none, e.dst, c⟩
    | _ => none
  | _, c, e =>
    match e.kind with
    | .load => some ⟨.aliases, e.src, c⟩
    | .field _ | .index => some ⟨.pointsTo, e.src, c⟩
    | _ => none

variable {x : AliasScope} {answer : Query → Demand Reached} {kind : Query.Kind}
  {c : Context} {w : Walk} {e : Edge} {n : NodeId} {q : Query} {steps : Nat} {s t : AliasSolver}

/-- At most one question is asked at an edge, before anything else. -/
theorem exists_follow_eq (x : AliasScope) (kind : Query.Kind) (c : Context) (w : Walk) (e : Edge) :
    ∃ g : Reached → Demand Walk, ∀ answer, follow x answer kind c w e =
      (match asksAt kind c e with
        | some z => answer z
        | none => pure ∅) >>= g := by
  -- where nothing is asked, it does not matter who answers
  have hnone (h : asksAt kind c e = none) (hsame : ∀ answer, follow x answer kind c w e =
      follow x (fun _ => throw (.unanswered .failed)) kind c w e) :
      ∃ g : Reached → Demand Walk, ∀ answer, follow x answer kind c w e =
        (match asksAt kind c e with
          | some z => answer z
          | none => pure ∅) >>= g := by
    refine ⟨fun _ => follow x (fun _ => throw (.unanswered .failed)) kind c w e, fun answer => ?_⟩
    rw [h, pure_bind, hsame]
  obtain ⟨src, dst, label⟩ := e
  cases kind with
  | flowsTo offset =>
    cases label with
    | store =>
      refine ⟨fun a => do return w.push (← loadedThrough x (fun _ => pure a) dst c),
        fun answer => ?_⟩
      simp only [follow, stepForward, loadedThrough, asksAt, bind_assoc, pure_bind]
    | field k =>
      by_cases hk : offset = some k
      · subst hk
        refine ⟨fun r => pure { w with found := w.found.union r }, fun answer => ?_⟩
        simp only [follow, stepForward, asksAt, Option.isNone_some, Bool.false_and,
          Bool.false_eq_true,
          if_false, if_true]
        rfl
      · refine hnone (by simp only [asksAt, if_neg hk]) fun answer => ?_
        simp only [follow, stepForward, if_neg hk]
    | index => exact ⟨fun r => pure { w with found := w.found.union r }, fun _ => rfl⟩
    | _ => exact hnone rfl fun _ => rfl
  | pointsTo | aliases =>
    cases label with
    | load =>
      refine ⟨fun a => do return w.push (← storedThrough x (fun _ => pure a) src c),
        fun answer => ?_⟩
      simp only [follow, stepBack, storedThrough, asksAt, bind_assoc, pure_bind]
    | field k => exact ⟨_, fun _ => rfl⟩
    | index => exact ⟨_, fun _ => rfl⟩
    | _ => exact hnone rfl fun _ => rfl

namespace Stage

/-- A query before its first step. -/
def first (steps : Nat) (q : Query) : Stage :=
  if q.kind = .aliases then .asking else .walking steps ∅ (startOf q) q.ctx []

/-- What is still to be done for a query. -/
def rest (x : AliasScope) (answer : Query → Demand Reached) (q : Query) : Stage → Demand Reached
  | .walking steps seen w c pending => do
    let w ← pending.foldlM (follow x answer q.kind c) w
    return { ← walk (take x answer q.kind) steps seen w with status := .solved }
  | .asking => collectAliases x answer q.node q.ctx
  | .collecting found pending => do
    let found ← pending.foldlM (fun found z => return found.union (← answer z)) found
    return { found with status := .solved }

/-- The question that is asked next. -/
def asks (q : Query) : Stage → Option Query
  | .walking _ _ _ c (e :: _) => asksAt q.kind c e
  | .asking => some ⟨.pointsTo, q.node, q.ctx⟩
  | .collecting _ (z :: _) => some z
  | _ => none

/-- The context of a place that was taken up or is to be taken up, or of an answer as far as it is
found. -/
def Holds (c : Context) : Stage → Prop
  | .walking _ seen w _ _ =>
    ∃ n, seen.holds n c = true ∨ (n, c) ∈ w.work ∨ w.found.holds n c = true
  | .asking => False
  | .collecting found _ => ∃ n, found.holds n c = true

end Stage

/-- One step of a query: a place is taken up, an edge is followed, or a question of an alias query
is answered. -/
inductive Step (x : AliasScope) (answer : Query → Demand Reached) (q : Query) :
    Stage × AliasSolver → Stage × AliasSolver → Prop
  | take {steps seen w c n d rest s t}
      (next : (w.work.dropWhile fun (n, c) => seen.holds n c) = (n, d) :: rest)
      (spends : spend.Yields s () t) :
      Step x answer q (.walking (steps + 1) seen w c [], s)
        (.walking steps (seen.add n d) (arrive x q.kind n d { w with work := rest }) d
          (edgesAt x q.kind n), t)
  | follow {steps seen w c e pending w' s t}
      (follows : (follow x answer q.kind c w e).Yields s w' t) :
      Step x answer q (.walking steps seen w c (e :: pending), s)
      (.walking steps seen w' c pending, t)
  | ask {pts s t} (answers : (answer ⟨.pointsTo, q.node, q.ctx⟩).Yields s pts t) :
      Step x answer q (.asking, s) (.collecting ∅ (flowQueriesOf x pts), t)
  | collect {found z pending r s t} (answers : (answer z).Yields s r t) :
      Step x answer q (.collecting found (z :: pending), s) (.collecting (found.union r) pending, t)

/-- The stages of a query, with the solver at each. -/
def Stages (x : AliasScope) (answer : Query → Demand Reached) (steps : Nat) (q : Query)
    (s : AliasSolver) : Stage × AliasSolver → Prop :=
  Relation.ReflTransGen (Step x answer q) (.first steps q, s)

theorem rest_first (h : InScope x q) :
    (Stage.first steps q).rest x answer q = body x answer steps q := by
  unfold Stage.first body InScope at *
  split
  · next hkind =>
    simp only [hkind]
    rfl
  · next hkind =>
    split
    · next h => exact absurd h hkind
    · next offset h =>
      simp only [Stage.rest, h, takeForward_eq]
      rfl
    · next hpoints =>
      rw [if_pos (h hpoints)]
      simp only [Stage.rest, hpoints, takeBack_eq]
      rfl

/-- A step leaves the rest of a query to be done. -/
theorem run_rest_of_step {a b : Stage × AliasSolver} (h : Step x answer q a b) :
    (a.1.rest x answer q).run.run a.2 = (b.1.rest x answer q).run.run b.2 := by
  cases h with
  | @take steps seen w c n d rest s t hnext hspend =>
    have htake : walk (take x answer q.kind) (steps + 1) seen w = (do
        spend
        walk (take x answer q.kind) steps (seen.add n d)
          (← take x answer q.kind n d { w with work := rest })) := by
      rw [walk, hnext]
    simp only [Stage.rest, List.foldlM_nil, pure_bind, htake, bind_assoc]
    rw [run_bind, hspend]
    simp only [take]
  | follow hfollow =>
    simp only [Stage.rest, List.foldlM_cons, bind_assoc]
    rw [run_bind, hfollow]
  | ask hask =>
    simp only [Stage.rest, collectAliases]
    rw [run_bind, hask]
    rfl
  | collect hask =>
    simp only [Stage.rest, List.foldlM_cons, bind_assoc, pure_bind]
    rw [run_bind, hask]

/-- The stages of a query are those of its body. -/
theorem run_body_of_stages (hq : InScope x q) {a : Stage × AliasSolver}
    (h : Stages x answer steps q s a) :
    (body x answer steps q).run.run s = (a.1.rest x answer q).run.run a.2 := by
  induction h with
  | refl => rw [rest_first hq]
  | tail _ hstep ih => rw [ih, run_rest_of_step hstep]

/-- There is a next stage unless the query ends. -/
theorem exists_step_or_ends (a : Stage × AliasSolver) : (∃ b, Step x answer q a b) ∨
    (∃ r, (a.1.rest x answer q).run.run a.2 = (.ok r, a.2)) ∨
    ∃ e t, (a.1.rest x answer q).run.run a.2 = (.error e, t) := by
  -- what is done next ends the query or has a result to go on with
  have hnext {α : Type} {m : Demand α} {f : α → Demand Reached} {s : AliasSolver}
      (hm : ∀ b t, m.Yields s b t → ∃ b, Step x answer q a b) :
      (∃ b, Step x answer q a b) ∨ ∃ e t, (m >>= f).run.run s = (.error e, t) := by
    rw [run_bind]
    cases hrun : m.run.run s with
    | mk res t =>
      cases res with
      | error e => exact .inr ⟨e, t, rfl⟩
      | ok b => exact .inl (hm b t hrun)
  obtain ⟨stage, s⟩ := a
  cases stage with
  | walking steps seen w c pending =>
    cases pending with
    | cons e pending =>
      simp only [Stage.rest, List.foldlM_cons, bind_assoc]
      exact (hnext fun w' t h => ⟨_, .follow h⟩).imp_right .inr
    | nil =>
      cases steps with
      | zero => exact .inr (.inr ⟨_, s, rfl⟩)
      | succ steps =>
        cases hwork : w.work.dropWhile fun (n, c) => seen.holds n c with
        | nil =>
          refine .inr (.inl ⟨{ w.found with status := .solved }, ?_⟩)
          simp only [Stage.rest, List.foldlM_nil, pure_bind, walk, hwork]
          rfl
        | cons place rest =>
          obtain ⟨n, d⟩ := place
          simp only [Stage.rest, List.foldlM_nil, pure_bind, walk, hwork, bind_assoc]
          exact (hnext fun _ t h => ⟨_, .take hwork h⟩).imp_right .inr
  | asking => exact (hnext fun pts t h => ⟨_, .ask h⟩).imp_right .inr
  | collecting found pending =>
    cases pending with
    | nil => exact .inr (.inl ⟨{ found with status := .solved }, rfl⟩)
    | cons z pending =>
      simp only [Stage.rest, List.foldlM_cons, bind_assoc, pure_bind]
      exact (hnext fun r t h => ⟨_, .collect h⟩).imp_right .inr

/-! ## contexts that arise -/

/-- A context arises in a query that a solver is asked: it is the context of the query, one that the
query holds at some stage or one in its answer, or it arises in a question that is asked on the
way. -/
inductive Arises (x : AliasScope) (steps : Nat) :
    Nat → Query → AliasSolver → Context → Prop
  | asked {depth q s} : Arises x steps depth q s q.ctx
  | answered {depth q s r t n c} (answers : (solve x steps depth q).Yields s r t)
      (holds : r.holds n c = true) : Arises x steps depth q s c
  | held {depth q s a c} (fresh : s.standing q = .fresh) (inScope : InScope x q)
      (stage : Stages x (solve x steps depth) steps q (s.opened q) a) (holds : a.1.Holds c) :
      Arises x steps (depth + 1) q s c
  | nested {depth q s a z c} (fresh : s.standing q = .fresh) (inScope : InScope x q)
      (stage : Stages x (solve x steps depth) steps q (s.opened q) a) (asks : a.1.asks q = some z)
      (arises : Arises x steps depth z a.2 c) : Arises x steps (depth + 1) q s c

/-- A context arises while a solver is asked some queries one after the other: in one of the
queries, or it is kept between them. -/
inductive ArisesIn (x : AliasScope) (s : AliasSolver) : List Query → Context → Prop
  | query {before q behind c}
      (arises : Arises x (after x s before).limit (2 * (after x s before).limit) q
        (after x s before).started c) : ArisesIn x s (before ++ q :: behind) c
  | answer {before q behind r n c} (answers : ((ask x q).run.run (after x s before)).1 = .ok r)
      (holds : r.holds n c = true) : ArisesIn x s (before ++ q :: behind) c
  | key {before behind} {z : Query} (kept : z ∈ (after x s before).cache.entries) :
      ArisesIn x s (before ++ behind) z.ctx
  | entry {before behind n c} {z : Query} {r : Reached}
      (kept : (after x s before).cache.entries[z]? = some r) (holds : r.holds n c = true) :
      ArisesIn x s (before ++ behind) c

/-! ## stable properties -/

variable {P : Context → Prop}

/-- All contexts of a query under way have a property, and the edges to follow are those of a
node. -/
def Stage.All (P : Context → Prop) (x : AliasScope) (q : Query) : Stage → Prop
  | .walking _ seen w c pending =>
    seen.All P ∧ w.All P ∧ P c ∧ ∃ n, ∀ e ∈ pending, e ∈ edgesAt x q.kind n
  | .asking => P q.ctx
  | .collecting found pending => found.All P ∧ ∀ z ∈ pending, P z.ctx

theorem Stage.all_first (hq : P q.ctx) : (Stage.first steps q).All P x q := by
  unfold first
  split
  · exact hq
  · exact ⟨.empty, all_startOf hq, hq, q.node, fun _ h => absurd h List.not_mem_nil⟩

theorem Stage.All.of_holds {a : Stage} (ha : a.All P x q) (h : a.Holds c) : P c := by
  cases a with
  | walking steps seen w d pending =>
    obtain ⟨n, h | h | h⟩ := h
    · exact ha.1 n c h
    · exact ha.2.1.work _ h
    · exact ha.2.1.found n c h
  | asking => exact h.elim
  | collecting found pending =>
    obtain ⟨n, h⟩ := h
    exact ha.1 n c h

theorem ctx_of_asksAt {z : Query} (h : asksAt kind c e = some z) : z.ctx = c := by
  unfold asksAt at h
  split at h
  · split at h
    · cases h
      rfl
    · split at h <;> cases h
      rfl
    · cases h
      rfl
    · cases h
  · split at h <;> cases h <;> rfl

/-- A question is asked about a context of the stage. -/
theorem Stage.All.of_asks {a : Stage} {z : Query} (ha : a.All P x q) (h : a.asks q = some z) :
    P z.ctx := by
  cases a with
  | walking steps seen w c pending =>
    cases pending with
    | nil => cases h
    | cons e pending => exact ctx_of_asksAt h ▸ ha.2.2.1
  | asking =>
    cases h
    exact ha
  | collecting found pending =>
    cases pending with
    | nil => cases h
    | cons z' pending =>
      cases h
      exact ha.2 z List.mem_cons_self

/-- A step keeps a stable property of all contexts. -/
theorem all_of_step (hx : x.Stable P) (hanswer : Answerer P answer) {a b : Stage × AliasSolver}
    (h : Step x answer q a b) (hq : P q.ctx) (ha : a.1.All P x q) (hs : a.2.All P) :
    b.1.All P x q ∧ b.2.All P := by
  cases h with
  | take hnext hspend =>
    obtain ⟨hseen, hw, -, -⟩ := ha
    obtain ⟨hd, hrest⟩ := all_of_dropWhile hw hnext
    exact ⟨⟨hseen.add hd, all_arrive hx hd hrest, hd, _, fun _ => id⟩,
      (Demand.Keeps.spend.of_yields hs hspend).1⟩
  | follow hfollow =>
    obtain ⟨hseen, hw, hc, n, hpending⟩ := ha
    obtain ⟨ht, hw'⟩ := (keeps_follow hx hc hw hanswer (hpending _ List.mem_cons_self)).of_yields hs
      hfollow
    exact ⟨⟨hseen, hw', hc, n, fun e he => hpending e (List.mem_cons_of_mem _ he)⟩, ht⟩
  | ask hask =>
    obtain ⟨ht, hpts⟩ := (hanswer ⟨.pointsTo, q.node, q.ctx⟩ hq).of_yields hs hask
    exact ⟨⟨.empty, forall_flowQueriesOf hx hpts⟩, ht⟩
  | collect hask =>
    obtain ⟨hfound, hpending⟩ := ha
    obtain ⟨ht, hr⟩ := (hanswer _ (hpending _ List.mem_cons_self)).of_yields hs hask
    exact ⟨⟨hfound.union hr, fun z hz => hpending z (List.mem_cons_of_mem _ hz)⟩, ht⟩

theorem all_of_stages (hx : x.Stable P) (hanswer : Answerer P answer) {a : Stage × AliasSolver}
    (h : Stages x answer steps q s a) (hq : P q.ctx) (hs : s.All P) :
    a.1.All P x q ∧ a.2.All P := by
  induction h with
  | refl => exact ⟨Stage.all_first hq, hs⟩
  | tail _ hstep ih => exact all_of_step hx hanswer hstep hq ih.1 ih.2

/-- A stable property passes from the context of a query to every context that arises in it. -/
theorem of_arises (hx : x.Stable P) {depth : Nat} (h : Arises x steps depth q s c) (hq : P q.ctx)
    (hs : s.All P) : P c := by
  -- by nesting: a question on the way is asked about a context of the stage, of the solver there
  induction h with
  | asked => exact hq
  | answered answers holds => exact ((keeps_solve hx steps _ _ hq).of_yields hs answers).2 _ _ holds
  | held _ _ stage holds =>
    exact (all_of_stages hx (keeps_solve hx steps _) stage hq (all_opened hs hq)).1.of_holds holds
  | nested _ _ stage asks _ ih =>
    obtain ⟨ha, ht⟩ := all_of_stages hx (keeps_solve hx steps _) stage hq (all_opened hs hq)
    exact ih (ha.of_asks asks) ht

/-! ## whole queries -/

/-- A whole query keeps a stable property. -/
theorem all_ask (hx : x.Stable P) (hq : P q.ctx) (hs : s.All P) :
    ((ask x q).run.run s).2.All P ∧ ∀ r, ((ask x q).run.run s).1 = .ok r → r.All P := by
  obtain ⟨ht, hr⟩ := keeps_solve hx s.limit (2 * s.limit) q hq s.started hs
  rw [run_ask]
  generalize (solve x s.limit (2 * s.limit) q).run.run s.started = result at ht hr ⊢
  obtain ⟨(status | err) | r, t⟩ := result
  · refine ⟨?_, fun r h => Except.ok.inj h ▸ .ofStatus status⟩
    dsimp only
    split <;> exact ht
  · refine ⟨ht, fun _ h => ?_⟩
    cases h
  · refine ⟨ht, fun _ h => ?_⟩
    cases h
    exact hr r rfl

theorem all_after (hx : x.Stable P) {qs : List Query} (hqs : ∀ q ∈ qs, P q.ctx) (hs : s.All P) :
    (after x s qs).All P := by
  induction qs generalizing s with
  | nil => exact hs
  | cons q qs ih =>
    exact ih (fun z hz => hqs z (List.mem_cons_of_mem _ hz))
      (all_ask hx (hqs q List.mem_cons_self) hs).1

/-- A stable property passes from the contexts of queries to every context that arises in them. -/
theorem of_arisesIn (hx : x.Stable P) {qs : List Query} (h : ArisesIn x s qs c)
    (hqs : ∀ q ∈ qs, P q.ctx) (hs : s.All P) : P c := by
  cases h with
  | query harises =>
    obtain ⟨hbefore, hq, -⟩ := List.forall_mem_append.1 hqs |>.imp_right List.forall_mem_cons.1
    exact of_arises hx harises hq (all_after hx hbefore hs)
  | answer hanswers hholds =>
    obtain ⟨hbefore, hq, -⟩ := List.forall_mem_append.1 hqs |>.imp_right List.forall_mem_cons.1
    exact (all_ask hx hq (all_after hx hbefore hs)).2 _ hanswers _ _ hholds
  | key hkept =>
    exact (all_after hx (List.forall_mem_append.1 hqs).1 hs _ _
      (TreeMap.getElem?_eq_some_getElem hkept)).1
  | entry hkept hholds =>
    exact (all_after hx (List.forall_mem_append.1 hqs).1 hs _ _ hkept).2 _ _ hholds

/-- A new solver keeps nothing. -/
theorem all_new (budget : Int) (log : Log) : ({ budget, log } : AliasSolver).All P := by
  intro z r hr
  simp at hr

/-- **Contexts stay finite.**  Whatever queries are asked about contexts that repeat no site, and
whatever their budget is: each context that arises repeats no site either, and its sites label edges
of the graph or occur in a context that was asked about.  From finitely many contexts only finitely
many arise.  Contexts made of call paths or of points repeat no site. -/
theorem contexts_finite (x : AliasScope) {S : Set Context} (hS : ∀ c ∈ S, c.sites.Nodup) :
    (∀ budget log qs c, (∀ q ∈ qs, q.ctx ∈ S) → ArisesIn x { budget, log } qs c →
      c.sites.Nodup ∧ ∀ site ∈ c.sites, x.graph.Labels site ∨ ∃ d ∈ S, site ∈ d.sites) ∧
    (S.Finite → {c | ∃ budget log qs, (∀ q ∈ qs, q.ctx ∈ S) ∧
      ArisesIn x { budget, log } qs c}.Finite) ∧
    (∀ i q j r pairs c d, x.contextPairs i q j r = .ok pairs → (c, d) ∈ pairs →
      c.sites.Nodup ∧ d.sites.Nodup) ∧
    ∀ p, (Context.rooted p).sites.Nodup := by
  have hwithin {budget : Int} {log : Log} {qs : List Query} {c : Context}
    (hqs : ∀ q ∈ qs, q.ctx ∈ S)
      (h : ArisesIn x { budget, log } qs c) : c.Within x.graph S :=
    of_arisesIn (x.stable_within S) h (fun q hq => .of_mem (hqs q hq) (hS _ (hqs q hq)))
      (all_new budget log)
  refine ⟨fun budget log qs c hqs h => ⟨(hwithin hqs h).nodup, (hwithin hqs h).sites⟩,
    fun hfin => ?_,
    fun i q j r pairs c d h hcd => AliasScope.nodup_of_contextPairs h hcd, fun p => .nil⟩
  have hfinite : {c : Context | c.Within x.graph S}.Finite := Context.Within.finite hfin
  refine hfinite.subset ?_
  rintro c ⟨budget, log, qs, hqs, h⟩
  exact hwithin hqs h

/-- A function that answers a new object or calls itself for one. -/
def madeInRecursion : List Command :=
  [.declare "main" 0, .declare "make" 0, .const 0, .const 1,
    .body 0, .append 0 0 (.call (.direct 1) []), .append 0 0 (.ret none),
    .body 1, .block 1, .block 1, .block 1, .append 1 1 (.compare .eq 2 3),
    .append 1 1 (.branch 5 2 3), .append 1 2 (.alloc false 0), .append 1 2 (.jump 4),
    .append 1 3 (.call (.direct 1) []), .append 1 3 (.jump 4),
    .append 1 4 (.phi [(6, 2), (7, 3)]), .append 1 4 (.ret (some 8))]

/-- The object is found under one call of the recursion, and under no second one whatever the
budget. -/
theorem contexts_finite_madeInRecursion : ∃ subject par,
    Subject.prepare (Builder.ofScript madeInRecursion) {} = .ok subject ∧
    Parallelism.analyze subject (.collect subject) = .ok par ∧
    let x : AliasScope := ⟨subject, par⟩
    let q : Query := ⟨.pointsTo, 4, .global⟩
    ArisesIn x { budget := 1000, log := default } [q] { sites := [0, 6] } ∧
    x.graph.Labels 6 ∧
    (∀ budget log, ¬ArisesIn x { budget, log } [q] { sites := [0, 6, 6] }) ∧
    {c | ∃ budget log qs, (∀ q ∈ qs, q.ctx ∈ ({.global} : Set Context)) ∧
      ArisesIn x { budget, log } qs c}.Finite := by
  have heval : (Subject.prepare (Builder.ofScript madeInRecursion) {}).toOption.any (fun subject =>
      (Parallelism.analyze subject (.collect subject)).toOption.any fun par =>
        ((ask ⟨subject, par⟩ ⟨.pointsTo, 4, .global⟩).run.run
          { budget := 1000, log := default }).1.toOption.any (·.holds 11 { sites := [0, 6] })) =
          true := by
    decide +kernel
  obtain ⟨subject, hsubject, heval⟩ := exists_of_any_toOption heval
  obtain ⟨par, hpar, heval⟩ := exists_of_any_toOption heval
  obtain ⟨r, hr, hholds⟩ := exists_of_any_toOption heval
  obtain ⟨harises, hfinite, -⟩ := contexts_finite ⟨subject, par⟩ (S := {.global}) (by
    intro c hc
    obtain rfl := Set.mem_singleton_iff.1 hc
    exact .nil)
  have hasked : ∀ q ∈ [(⟨.pointsTo, 4, .global⟩ : Query)], q.ctx ∈ ({.global} : Set Context) :=
    List.forall_mem_singleton.2 rfl
  have hfound : ArisesIn ⟨subject, par⟩ { budget := 1000, log := default }
      ([] ++ [⟨.pointsTo, 4, .global⟩]) { sites := [0, 6] } := .answer hr hholds
  refine ⟨subject, par, hsubject, hpar, hfound, ?_, fun budget log h => ?_,
    hfinite (Set.finite_singleton _)⟩
  · refine ((harises _ _ _ _ hasked hfound).2 6 (by simp)).resolve_right ?_
    rintro ⟨d, rfl, hsite⟩
    exact absurd hsite List.not_mem_nil
  · exact absurd (harises budget log _ _ hasked h).1 (by decide)

end AliasSolver

end DataRace
