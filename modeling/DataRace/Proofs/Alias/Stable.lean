import DataRace.Proofs.Alias.Contexts
import DataRace.Proofs.Alias.Settled
import DataRace.Proofs.Alias.Walk

/-!
# DataRace.Proofs.Alias.Stable

Properties that pass from the context of a query to all contexts behind it.

A walk gets to new contexts in three ways: it enters a callee that is not on the
stack, it returns from one, and it goes over to the context of global objects.
A property that these ways keep is *stable*.  It passes to every context in an
answer and in what a solver keeps, also where a query ends without an answer.

* `Demand.Keeps` — a part of a query keeps an invariant of the solver;
* `AliasSolver.keeps_stepBack`, `AliasSolver.keeps_stepForward` — one step along an
  edge;
* `AliasSolver.keeps_solve` — whole queries, with the queries below them.
-/

namespace DataRace

open Std

variable {P : Context → Prop}

/-! ## contexts of answers, walks and solvers -/

/-- All contexts of an answer have a property. -/
def Reached.All (P : Context → Prop) (r : Reached) : Prop := ∀ n c, r.holds n c = true → P c

namespace Reached

variable {r s : Reached} {n : NodeId} {c : Context} {cs : TreeSet Context}

theorem All.empty : Reached.All P ∅ := fun _ _ h => absurd h not_holds_empty

theorem All.ofStatus (status : Status) : (Reached.ofStatus status).All P :=
  fun _ _ h => absurd h not_holds_empty

theorem All.add (hr : r.All P) (hc : P c) : (r.add n c).All P := by
  intro m d h
  rcases holds_add.1 h with ⟨-, rfl⟩ | h
  · exact hc
  · exact hr m d h

theorem All.addAll (hr : r.All P) (hcs : ∀ c ∈ cs, P c) : (r.addAll n cs).All P := by
  intro m d h
  rcases holds_addAll.1 h with ⟨-, hd⟩ | h
  · exact hcs d hd
  · exact hr m d h

theorem All.union (hr : r.All P) (hs : s.All P) : (r.union s).All P := by
  intro m d h
  rcases holds_union.1 h with h | h
  · exact hs m d h
  · exact hr m d h

theorem All.of_mem_toList (hr : r.All P) {e : NodeId × TreeSet Context compare}
    (he : e ∈ r.entries.toList) (c : Context) (hc : c ∈ e.2) : P c :=
  hr e.1 c (holds_iff.2 ⟨e.2, he, hc⟩)

end Reached

/-- All contexts of a walk have a property, those to come and those found. -/
structure Walk.All (P : Context → Prop) (w : Walk) : Prop where
  work : ∀ place ∈ w.work, P place.2
  found : w.found.All P

namespace Walk.All

variable {w : Walk} {n : NodeId} {c : Context} {cs : TreeSet Context}

theorem push {places : List (NodeId × Context)} (hw : w.All P)
    (hplaces : ∀ place ∈ places, P place.2) :
    (w.push places).All P where
  work place h := (List.mem_append.1 h).elim (fun h => hplaces place (List.mem_reverse.1 h))
    (hw.work place)
  found := hw.found

theorem pushOne (hw : w.All P) (hc : P c) : (w.push [(n, c)]).All P :=
  hw.push (List.forall_mem_singleton.2 hc)

theorem add (hw : w.All P) (hcs : ∀ c ∈ cs, P c) : (w.add n cs).All P :=
  ⟨hw.work, hw.found.addAll hcs⟩

end Walk.All

/-- All contexts that a solver keeps have a property, those of the queries and those of the
answers. -/
def AliasSolver.All (P : Context → Prop) (s : AliasSolver) : Prop :=
  ∀ (z : Query) (r : Reached), s.cache.entries[z]? = some r → P z.ctx ∧ r.All P

/-! ## parts of queries that keep something -/

/-- A part of a query keeps an invariant, even if it has no result; its result has a property. -/
def Demand.Keeps {α : Type} (I : AliasSolver → Prop) (Q : α → Prop) (m : Demand α) : Prop :=
  ∀ s, I s → I (m.run.run s).2 ∧ ∀ a, (m.run.run s).1 = .ok a → Q a

namespace Demand.Keeps

open AliasSolver

variable {α β : Type} {I : AliasSolver → Prop} {Q : α → Prop} {R : β → Prop}

theorem pure {a : α} (ha : Q a) : Keeps I Q (pure a) :=
  fun _ hs => ⟨hs, fun _ h => Except.ok.inj h ▸ ha⟩

theorem throw (e : Stop) : Keeps I Q (throw e : Demand α) := by
  refine fun _ hs => ⟨hs, fun _ h => ?_⟩
  cases h

theorem bind {m : Demand α} {f : α → Demand β} (hm : Keeps I Q m)
    (hf : ∀ a, Q a → Keeps I R (f a)) :
    Keeps I R (m >>= f) := by
  intro s hs
  have hfirst := hm s hs
  rw [run_bind]
  generalize m.run.run s = result at hfirst ⊢
  obtain ⟨e | a, t⟩ := result
  · refine ⟨hfirst.1, fun _ h => ?_⟩
    cases h
  · exact hf a (hfirst.2 a rfl) t hfirst.1

theorem foldlM {f : β → α → Demand β} {as : List α}
    (hf : ∀ b, R b → ∀ a ∈ as, Keeps I R (f b a)) {b : β} (hb : R b) :
    Keeps I R (as.foldlM f b) := by
  induction as generalizing b with
  | nil => exact pure hb
  | cons a as ih =>
    rw [List.foldlM_cons]
    exact (hf b hb a List.mem_cons_self).bind fun c hc =>
      ih (fun b hb a ha => hf b hb a (List.mem_cons_of_mem _ ha)) hc

theorem spend : Keeps (AliasSolver.All P) (fun _ => True) AliasSolver.spend := by
  intro s hs
  refine ⟨?_, fun _ _ => trivial⟩
  rw [run_spend]
  split
  · exact hs
  · split <;> exact hs

theorem of_yields {m : Demand α} (hm : Keeps I Q m) {s t : AliasSolver} {a : α} (hs : I s)
    (h : m.Yields s a t) : I t ∧ Q a := by
  have hrun := hm s hs
  rw [h] at hrun
  exact ⟨hrun.1, hrun.2 a rfl⟩

end Demand.Keeps

/-- A property of contexts that a walk keeps on its way to others. -/
structure AliasScope.Stable (x : AliasScope) (P : Context → Prop) : Prop where
  global : P .global
  push : ∀ {c site}, P c → x.graph.Labels site → c.onStack site = false → P (c.push site)
  pop : ∀ {c d site}, P c → c.pop x.roots site = some d → P d

/-- To be in reach of some contexts is stable. -/
theorem AliasScope.stable_within (x : AliasScope) (S : Set Context) :
    x.Stable (Context.Within x.graph S) where
  global := .global
  push := .push
  pop := .pop

namespace AliasSolver

open Demand

variable {x : AliasScope} {answer : Query → Demand Reached} {c : Context} {w : Walk} {e : Edge}
  {n : NodeId}

/-- Whoever answers keeps what contexts have in common. -/
def Answerer (P : Context → Prop) (answer : Query → Demand Reached) : Prop :=
  ∀ z : Query, P z.ctx → (answer z).Keeps (AliasSolver.All P) (Reached.All P)

/-- The places at the ends of edges at the nodes of an answer are under its contexts. -/
theorem forall_places {a : Reached} (ha : a.All P) (edges : NodeId → List Edge)
    (pick : Edge → NodeId) : ∀ place ∈ a.entries.toList.flatMap fun entry =>
      (edges entry.1).flatMap fun e => entry.2.toList.map (pick e, ·), P place.2 := by
  intro place hplace
  obtain ⟨entry, hentry, hplace⟩ := List.mem_flatMap.1 hplace
  obtain ⟨e, -, hplace⟩ := List.mem_flatMap.1 hplace
  obtain ⟨d, hd, rfl⟩ := List.mem_map.1 hplace
  exact ha.of_mem_toList hentry d (TreeSet.mem_toList.1 hd)

theorem keeps_storedThrough (hanswer : Answerer P answer) (hc : P c) :
    (storedThrough x answer n c).Keeps (AliasSolver.All P)
      fun places => ∀ place ∈ places, P place.2 :=
  .bind (hanswer _ hc) fun _ ha =>
    .pure (forall_places ha (fun q => (x.graph.inEdges q).filter (·.kind = .store)) Edge.src)

theorem keeps_loadedThrough (hanswer : Answerer P answer) (hc : P c) :
    (loadedThrough x answer n c).Keeps (AliasSolver.All P)
      fun places => ∀ place ∈ places, P place.2 :=
  .bind (hanswer _ hc) fun _ ha =>
    .pure (forall_places ha (fun q => (x.graph.outEdges q).filter (·.kind = .load)) Edge.dst)

section Steps

variable (hx : x.Stable P) (hc : P c) (hw : w.All P)

include hx hc hw

/-- The places behind a return, if the context allows it. -/
theorem all_pushReturn {site : InstId} :
    (w.push ((c.pop x.roots site).toList.map (n, ·))).All P := by
  refine hw.push fun place hplace => ?_
  obtain ⟨d, hd, rfl⟩ := List.mem_map.1 hplace
  exact hx.pop hc (Option.mem_toList.1 hd)

/-- The place in a callee, unless the call is on the stack. -/
theorem all_pushCallee {site : InstId} (hsite : x.graph.Labels site) :
    (if c.onStack site then w else w.push [(n, c.push site)]).All P := by
  by_cases hon : c.onStack site = true
  · rw [if_pos hon]
    exact hw
  · rw [if_neg hon]
    exact hw.pushOne (hx.push hc hsite (Bool.eq_false_iff.2 hon))

variable (hanswer : Answerer P answer)

include hanswer

theorem keeps_stepBack (he : e ∈ x.graph.inEdges n) :
    (stepBack x answer c w e).Keeps (AliasSolver.All P) (Walk.All P) := by
  obtain ⟨src, dst, kind⟩ := e
  cases kind with
  | addr =>
    simp only [stepBack]
    split
    · exact .pure hw
    · next o _ =>
      split
      · exact .pure hw
      · refine .pure ⟨hw.work, hw.found.add ?_⟩
        unfold AliasScope.objContext
        split
        · exact hx.global
        · exact hc
  | copy => exact .pure (hw.pushOne hc)
  | call site | fork site => exact .pure (all_pushReturn hx hc hw)
  | ret site | join site => exact .pure (all_pushCallee hx hc hw (.of_inEdges he rfl))
  | load =>
    exact .bind (keeps_storedThrough hanswer hc) fun places hplaces => .pure (hw.push hplaces)
  | store => exact .pure hw
  | field k =>
    refine .bind (hanswer _ hc) fun base hbase => .foldlM (fun w hw entry hentry => ?_) hw
    dsimp only
    split
    · exact .pure hw
    · split
      · exact .pure (hw.add (hbase.of_mem_toList hentry))
      · exact .throw _
  | index =>
    refine .bind (hanswer _ hc) fun base hbase => .pure ?_
    rw [TreeMap.foldl_eq_foldl_toList]
    refine List.foldlRecOn _ _ hw fun w hw entry hentry => ?_
    have hadd (m : NodeId) {w : Walk} (hw : w.All P) : (w.add m entry.2).All P :=
      hw.add (hbase.of_mem_toList hentry)
    split
    · exact hw
    · split
      · exact hadd _ hw
      · exact List.foldlRecOn _ _ hw fun w hw field _ => hadd _ hw

theorem keeps_stepForward {offset : Option Nat} (he : e ∈ x.graph.outEdges n) :
    (stepForward x answer offset c w e).Keeps (AliasSolver.All P) (Walk.All P) := by
  obtain ⟨src, dst, kind⟩ := e
  have hflow : (addAnswer answer w ⟨.flowsTo none, dst, c⟩).Keeps (AliasSolver.All P)
      (Walk.All P) :=
    .bind (hanswer _ hc) fun _ ha => .pure ⟨hw.work, hw.found.union ha⟩
  cases kind with
  | addr | copy => exact .pure (hw.pushOne hc)
  | call site | fork site => exact .pure (all_pushCallee hx hc hw (.of_outEdges he rfl))
  | ret site | join site => exact .pure (all_pushReturn hx hc hw)
  | load => exact .pure hw
  | store =>
    exact .bind (keeps_loadedThrough hanswer hc) fun places hplaces => .pure (hw.push hplaces)
  | field k =>
    simp only [stepForward]
    split
    · exact .pure hw
    · split
      · exact hflow
      · split
        · exact .pure (hw.pushOne hc)
        · exact .pure hw
  | index => exact hflow

end Steps

/-! ## walks in both directions -/

/-- The edges that a query of a kind follows from a node. -/
def edgesAt (x : AliasScope) : Query.Kind → NodeId → List Edge
  | .flowsTo _ => x.graph.outEdges
  | _ => x.graph.inEdges

/-- Follow an edge as a query of a kind does. -/
def follow (x : AliasScope) (answer : Query → Demand Reached) :
    Query.Kind → Context → Walk → Edge → Demand Walk
  | .flowsTo offset => stepForward x answer offset
  | _ => stepBack x answer

/-- Find what a query of a kind finds at a node before it follows an edge. -/
def arrive (x : AliasScope) (kind : Query.Kind) (n : NodeId) (c : Context) (w : Walk) : Walk :=
  match kind with
  | .flowsTo offset =>
    if offset.isNone && isDereferenced x n then { w with found := w.found.add n c } else w
  | _ => if x.isUnknownSource n then { w with found := w.found.add x.unknownNode .global } else w

/-- Take up a place as a query of a kind does. -/
def take (x : AliasScope) (answer : Query → Demand Reached) (kind : Query.Kind) (n : NodeId)
    (c : Context) (w : Walk) : Demand Walk :=
  (edgesAt x kind n).foldlM (follow x answer kind c) (arrive x kind n c w)

theorem takeBack_eq : takeBack x answer = take x answer .pointsTo := rfl

theorem takeForward_eq {offset : Option Nat} :
    takeForward x answer offset = take x answer (.flowsTo offset) := rfl

/-- The walk that a query starts with. -/
def startOf (q : Query) : Walk := { work := [(q.node, q.ctx)] }

variable {kind : Query.Kind} {q : Query}

theorem all_startOf (hq : P q.ctx) : (startOf q).All P :=
  ⟨List.forall_mem_singleton.2 hq, .empty⟩

theorem all_arrive (hx : x.Stable P) (hc : P c) (hw : w.All P) : (arrive x kind n c w).All P := by
  unfold arrive
  split
  · split
    · exact ⟨hw.work, hw.found.add hc⟩
    · exact hw
  · split
    · exact ⟨hw.work, hw.found.add hx.global⟩
    · exact hw

theorem keeps_follow (hx : x.Stable P) (hc : P c) (hw : w.All P) (hanswer : Answerer P answer)
    (he : e ∈ edgesAt x kind n) :
    (follow x answer kind c w e).Keeps (AliasSolver.All P) (Walk.All P) := by
  cases kind with
  | flowsTo offset => exact keeps_stepForward hx hc hw hanswer he
  | pointsTo | aliases => exact keeps_stepBack hx hc hw hanswer he

theorem keeps_take (hx : x.Stable P) (hc : P c) (hw : w.All P) (hanswer : Answerer P answer) :
    (take x answer kind n c w).Keeps (AliasSolver.All P) (Walk.All P) :=
  .foldlM (fun _ hw _ he => keeps_follow hx hc hw hanswer he) (all_arrive hx hc hw)

/-- The place a walk takes up next was on its list, and so are those that are left. -/
theorem all_of_dropWhile (hw : w.All P) {seen : Reached} {rest : List (NodeId × Context)}
    (hnext : (w.work.dropWhile fun (n, c) => seen.holds n c) = (n, c) :: rest) :
    P c ∧ { w with work := rest }.All P := by
  have hsub := (List.dropWhile_sublist (l := w.work) fun (n, c) => seen.holds n c).subset
  rw [hnext] at hsub
  exact ⟨hw.work _ (hsub List.mem_cons_self),
    fun place hplace => hw.work place (hsub (List.mem_cons_of_mem _ hplace)), hw.found⟩

theorem keeps_walk (hx : x.Stable P) (hanswer : Answerer P answer) {steps : Nat} {seen : Reached}
    (hw : w.All P) :
    (walk (take x answer kind) steps seen w).Keeps (AliasSolver.All P) (Reached.All P) := by
  induction steps generalizing seen w with
  | zero => exact .throw _
  | succ steps ih =>
    unfold walk
    split
    · exact .pure hw.found
    · next n c rest hnext =>
      obtain ⟨hc, hrest⟩ := all_of_dropWhile hw hnext
      exact .bind .spend fun _ _ => .bind (keeps_take hx hc hrest hanswer) fun _ hw' => ih hw'

/-! ## queries -/

theorem forall_flowQueries (hx : x.Stable P) {cs : TreeSet Context}
    (hcs : ∀ c : Context, c ∈ cs → P c) :
    ∀ z ∈ flowQueries x n cs, P z.ctx := by
  intro z hz
  unfold flowQueries at hz
  split at hz
  · exact absurd hz List.not_mem_nil
  · dsimp only at hz
    split at hz
    · exact absurd hz List.not_mem_nil
    · obtain ⟨c, hc, rfl⟩ := List.mem_map.1 hz
      split at hc
      · exact List.mem_singleton.1 hc ▸ hx.global
      · exact hcs c (TreeSet.mem_toList.1 hc)

/-- The queries for the pointers to all objects of an answer. -/
def flowQueriesOf (x : AliasScope) (pts : Reached) : List Query :=
  pts.entries.toList.flatMap fun entry => flowQueries x entry.1 entry.2

theorem forall_flowQueriesOf (hx : x.Stable P) {pts : Reached} (hpts : pts.All P) :
    ∀ z ∈ flowQueriesOf x pts, P z.ctx := by
  intro z hz
  obtain ⟨entry, hentry, hz⟩ := List.mem_flatMap.1 hz
  exact forall_flowQueries hx (hpts.of_mem_toList hentry) z hz

theorem keeps_collectAliases (hx : x.Stable P) (hanswer : Answerer P answer) (hc : P c) :
    (collectAliases x answer n c).Keeps (AliasSolver.All P) (Reached.All P) := by
  refine .bind (hanswer _ hc) fun pts hpts => ?_
  refine .bind (Q := Reached.All P) (.foldlM (fun found hfound z hz => ?_) .empty)
    fun found hfound => .pure hfound
  exact .bind (hanswer z (forall_flowQueriesOf hx hpts z hz)) fun r hr => .pure (hfound.union hr)

theorem keeps_body (hx : x.Stable P) (hanswer : Answerer P answer) (steps : Nat) (hq : P q.ctx) :
    (body x answer steps q).Keeps (AliasSolver.All P) (Reached.All P) := by
  unfold body
  split
  · exact keeps_collectAliases hx hanswer hq
  · rw [takeForward_eq]
    exact .bind (keeps_walk hx hanswer (all_startOf hq)) fun _ hr => .pure hr
  · split
    · rw [takeBack_eq]
      exact .bind (keeps_walk hx hanswer (all_startOf hq)) fun _ hr => .pure hr
    · exact .throw _

variable {s : AliasSolver}

theorem all_kept (hs : s.All P) : (s.kept q).All P := by
  rw [kept, TreeMap.getD_eq_getD_getElem?]
  cases hentry : s.cache.entries[q]? with
  | none => exact .empty
  | some r => exact (hs q r hentry).2

theorem all_noted (hs : s.All P) : (s.noted q).All P := by
  unfold noted
  split
  · exact hs
  · intro z r hr
    exact hs z r (entries_lookup s.cache q ▸ hr)

theorem all_opened (hs : s.All P) (hq : P q.ctx) : (s.opened q).All P := by
  by_cases hkind : q.kind = .aliases
  · rw [opened, if_pos hkind]
    exact hs
  · intro z r hr
    rw [getElem?_opened hkind] at hr
    split at hr
    · next hz =>
      cases hr
      exact ⟨hz ▸ hq, all_kept hs⟩
    · exact hs z r hr

theorem all_closed {res : Except Stop Reached} (hs : s.All P) (hq : P q.ctx)
    (hres : ∀ r, res = .ok r → r.All P) : (s.closed q res).All P := by
  have hstore {r : Reached} (hr : r.All P) :
      ({ s with cache := s.cache.store q r } : AliasSolver).All P := by
    intro z r' hr'
    rw [getElem?_store] at hr'
    split at hr'
    · next hz =>
      cases hr'
      exact ⟨hz ▸ hq, hr⟩
    · exact hs z r' hr'
  unfold closed
  split
  · exact hs
  · split
    · exact hstore (hres _ rfl)
    · exact hstore (.ofStatus _)
    · exact hs

/-- A stable property passes from the context of a query, and from what the solver keeps, to the
answer and to what the solver keeps then. -/
theorem keeps_solve (hx : x.Stable P) (steps depth : Nat) : Answerer P (solve x steps depth) := by
  induction depth with
  | zero => exact fun _ _ => .throw _
  | succ depth ih =>
    intro q hq s hs
    have hfail {status : Status} :
      ∀ r, (.error (.unanswered status) : Except Stop Reached) = .ok r →
        r.All P := by
      intro _ h
      cases h
    rw [run_solve]
    split
    · rw [settle]
      split
      · obtain ⟨ht, hr⟩ := keeps_body hx ih steps hq (s.opened q) (all_opened hs hq)
        exact ⟨all_closed ht hq hr, hr⟩
      · exact ⟨all_noted hs, fun _ h => Except.ok.inj h ▸ all_kept hs⟩
      · exact ⟨all_noted hs, fun _ h => Except.ok.inj h ▸ .ofStatus _⟩
      · exact ⟨all_noted hs, hfail⟩
    · exact ⟨hs, hfail⟩

end AliasSolver

end DataRace
