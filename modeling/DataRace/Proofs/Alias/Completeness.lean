import DataRace.Proofs.Alias.Flows
import DataRace.Proofs.Alias.Independence
import DataRace.Proofs.Alias.Walk
import DataRace.Proofs.Subject

/-!
# DataRace.Proofs.Alias.Completeness

What a solved points-to query finds, compared with the points-to sets.

Where no value is passed between functions or threads, contexts play no role,
and a query walks the graph that the points-to sets are the solution of.  It
misses objects for two reasons only: a query that is met while it is in process
counts as answered by nothing, and flows-to queries follow neither all
projections nor anything through unknown memory.

* `Complete` — what answers contain, by the kind of the query;
* `Traced.complete_body` — a query is complete if the answers to its questions
  are, so queries that unfold are (`Traced.complete_plain`).
-/

namespace DataRace

open Relation PointsTo

/-- A value is passed between functions or threads along an edge. -/
def EdgeKind.isTransfer : EdgeKind → Bool
  | .call _ | .ret _ | .fork _ | .join _ => true
  | _ => false

/-- No value is passed between functions or threads. -/
def AssignGraph.IsLocal (g : AssignGraph) : Prop := ∀ e ∈ g.edges, e.kind.isTransfer = false

instance {g : AssignGraph} : Decidable g.IsLocal :=
  inferInstanceAs (Decidable (∀ e ∈ g.edges, e.kind.isTransfer = false))

theorem AssignGraph.IsLocal.copy_of_isFlow {g : AssignGraph} (h : g.IsLocal) {e : Edge}
    (he : e ∈ g.edges) (hk : Solver.isFlow e.kind = true) : e.kind = .copy := by
  have hlocal := h e he
  cases hkind : e.kind with
  | copy => rfl
  | call site | ret site | fork site | join site =>
    rw [hkind] at hlocal
    cases hlocal
  | _ =>
    rw [hkind] at hk
    cases hk

theorem AssignGraph.asObj_objNode (g : AssignGraph) (o : ObjId) :
    g.asObj (g.objNode o) = some o := by
  rw [asObj, objNode, if_neg (Nat.not_lt.2 (Nat.le_add_right _ _)), Nat.add_sub_cancel_left]

namespace AliasSolver

/-- Answers lack nothing: a points-to answer no object of the set, a flows-to answer no pointer at
the end of a path from its node, and an alias answer no pointer that shares a tracked object.  Of
pointers, only those that something is loaded or stored through count. -/
structure Complete (x : AliasScope) (ask : Query → Demand Reached) : Prop where
  pointsTo : ∀ {n c r}, Answers ask ⟨.pointsTo, n, c⟩ r → n < x.graph.valueCount →
    ∀ o ∈ x.subject.pointers.of n, r.Has (x.graph.objNode o)
  flowsTo : ∀ {offset n c r}, Answers ask ⟨.flowsTo offset, n, c⟩ r → ∀ {v m : NodeId},
    v = n ∨ ⟨n, v, .addr⟩ ∈ x.graph.edges → Reaches x.subject.pointers offset v m →
    isDereferenced x m = true → r.Has m
  aliases : ∀ {n c r}, Answers ask ⟨.aliases, n, c⟩ r → n < x.graph.valueCount →
    ∀ {m o : Nat}, m < x.graph.valueCount → isDereferenced x m = true →
    o ∈ x.subject.pointers.of n → o ∈ x.subject.pointers.of m →
    x.subject.pointers.Tracked o → r.Has m

/-- What the walks are proved complete for: a program of local values whose memory can be
tracked. -/
structure Traced (p : Program) (x : AliasScope) : Prop where
  finished : p.Finished
  program : x.subject.program = p
  pointers : analyze p true = .ok x.subject.pointers
  isLocal : x.graph.IsLocal
  memory : x.subject.pointers.PassesTracked

namespace Traced

variable {p : Program} {x : AliasScope} {ask : Query → Demand Reached} {steps : Nat}
  {n : NodeId} {c : Context} {r : Reached} {s t : AliasSolver}

theorem graph (hx : Traced p x) : Solver.GraphInv p x.graph := graphInv hx.finished hx.pointers

theorem isUnknownSource (hx : Traced p x) {v : Nat}
    (h : Unrecognised p x.subject.pointers v) : x.isUnknownSource v = true := by
  obtain ⟨i, hcall, hresult, f, hf, hdecl, hlib⟩ := h
  obtain ⟨hlt, hdef⟩ := hx.finished.wellFormed.result_iff.1 hresult
  have hnode : x.graph.node v = .value v := if_pos (hx.graph.valueCount ▸ hlt)
  have hinst : p.defInst v = some i := by rw [Program.defInst, hdef]
  simp only [AliasScope.isUnknownSource, hnode, hx.program, hinst, hcall, Bool.true_and]
  exact List.any_eq_true.2 ⟨f, hf, by simp [hdecl, hlib]⟩

theorem isDereferenced_of_store (hx : Traced p x) {a ptr : NodeId}
    (he : ⟨a, ptr, .store⟩ ∈ x.graph.edges) : isDereferenced x ptr = true := by
  rw [isDereferenced, Bool.or_eq_true]
  exact .inr (List.any_eq_true.2 ⟨_, hx.graph.mem_inEdges.2 ⟨he, rfl⟩, decide_eq_true rfl⟩)

theorem isDereferenced_of_load (hx : Traced p x) {q b : NodeId}
    (he : ⟨q, b, .load⟩ ∈ x.graph.edges) : isDereferenced x q = true := by
  rw [isDereferenced, Bool.or_eq_true]
  exact .inl (List.any_eq_true.2 ⟨_, hx.graph.mem_outEdges.2 ⟨he, rfl⟩, decide_eq_true rfl⟩)

/-! ## points-to -/

theorem has_of_pointsTo (hx : Traced p x) (hask : Complete x ask)
    (h : (body x ask steps ⟨.pointsTo, n, c⟩).Yields s r t) (hn : n < x.graph.valueCount)
    {o : ObjId} (ho : o ∈ x.subject.pointers.of n) : r.Has (x.graph.objNode o) := by
  obtain ⟨v, hstart, hfinds, hclosed⟩ := closed_of_pointsTo h
  have hcount := hx.graph.valueCount
  have hbehind {e : Edge} {d : Context} (he : e ∈ x.graph.edges) (hd : v.passes e.dst d) :
      Behind x ask d v e :=
    (hclosed e.dst d hd).2 e (hx.graph.mem_inEdges.2 ⟨he, rfl⟩)
  -- the objects of every passed value are found, whichever edge brings them there
  have hpassed : Passed p true x.subject.pointers fun m o =>
      ∀ d, v.passes m d → v.finds (x.graph.objNode o) := by
    constructor
    case addr =>
      intro o m he hroot d hd
      exact hbehind he hd o (x.graph.asObj_objNode o) hroot.known
    case copy => exact fun _ he _ hprev d hd => hprev d (hbehind he hd)
    case memory =>
      intro a ptr q b o y hptr hq hstore hload hoptr hoq _ hprev d hd
      obtain ⟨o', hoptr', hoq', ho'⟩ := hx.memory _ hstore rfl _ hload rfl o hoptr hoq
      obtain ⟨aliases, haliases, hplaces⟩ := hbehind hload hd
      obtain ⟨d', hd'⟩ := hask.aliases haliases (hcount ▸ hq) (hcount ▸ hptr)
        (hx.isDereferenced_of_store hstore) hoq' hoptr' ho'
      have hsource := hplaces ptr d' hd' _ (hx.graph.mem_inEdges.2 ⟨hstore, rfl⟩) rfl
      exact hprev d' hsource
    case field =>
      intro a b k o y ha he ho _ hy d hd
      obtain ⟨base, hbase, hfields⟩ := hbehind he hd
      have hhas := hask.pointsTo hbase (hcount ▸ ha) o ho
      exact hfields _ hhas o (x.graph.asObj_objNode o) y hy
    case index =>
      intro a b o y ha he ho _ hy d hd
      obtain ⟨base, hbase, hfields⟩ := hbehind he hd
      have hhas := hask.pointsTo hbase (hcount ▸ ha) o ho
      obtain ⟨hunknown, hknown⟩ := hfields _ hhas o (x.graph.asObj_objNode o)
      cases hregion : (x.obj o).isUnknown with
      | false => exact hknown hregion y hy
      | true =>
        have hplain : x.objs.IsPlain o := .inl (of_decide_eq_true hregion)
        have hlaid := laidAt_of_mem hx.finished hx.pointers ho
        rw [Assignment.indexed, if_pos rfl, hlaid.allFields_of_isPlain hplain,
          List.mem_singleton] at hy
        exact hy ▸ hunknown hregion
    case unrecognised =>
      exact fun hr d hd => (hclosed _ d hd).1 (hx.isUnknownSource hr)
  have hfound := mem_of_induction hx.finished hx.pointers
    (fun e he => hx.isLocal.copy_of_isFlow he) hpassed (hcount ▸ hn) ho c hstart
  rwa [hfinds] at hfound

/-! ## flows-to -/

section flowsTo

variable {offset : Option Nat} {v : Trail}

/-- A movement from a passed place leads to a passed place, or for the first field to a question. -/
theorem passes_of_moves (hx : Traced p x) (hask : Complete x ask)
    (hclosed : ∀ m d, v.passes m d → AheadAll x ask offset v m d) {a b : NodeId} {d : Context}
    (hd : v.passes a d) (hstep : Moves x.subject.pointers a b) :
    (∃ d', v.passes b d') ∨ offset = some 0 ∧ FindsFlow ask d v b := by
  have hahead {e : Edge} (he : e ∈ x.graph.edges) (hsrc : e.src = a) : Ahead x ask offset d v e :=
    (hclosed a d hd).2 e (hx.graph.mem_outEdges.2 ⟨he, hsrc⟩)
  cases hstep with
  | copy he => exact .inl ⟨d, hahead he rfl⟩
  | first he =>
    obtain ⟨hfinds, hpasses⟩ := hahead he rfl
    by_cases hoff : offset = some 0
    · exact .inr ⟨hoff, hfinds hoff⟩
    · exact .inl ⟨d, hpasses hoff rfl⟩
  | memory hstore hload hptr hq hoptr hoq ho =>
    obtain ⟨aliases, haliases, hplaces⟩ := hahead hstore rfl
    obtain ⟨d', hd'⟩ := hask.aliases haliases hptr hq (hx.isDereferenced_of_load hload) hoptr hoq ho
    exact .inl ⟨d', hplaces _ d' hd' _ (hx.graph.mem_outEdges.2 ⟨hload, rfl⟩) rfl⟩

theorem finds_of_findsFlow (hask : Complete x ask) {m n : NodeId} {d : Context}
    (h : FindsFlow ask d v n) (hflows : Flows x.subject.pointers n m)
    (hm : isDereferenced x m = true) : v.finds m := by
  obtain ⟨a, ha, hfinds⟩ := h
  exact hfinds m (hask.flowsTo ha (.inl rfl) hflows hm)

theorem finds_of_flows (hx : Traced p x) (hask : Complete x ask)
    (hclosed : ∀ m d, v.passes m d → AheadAll x ask none v m d) {a m : NodeId}
    (hm : isDereferenced x m = true) (h : Flows x.subject.pointers a m) :
    ∀ {d}, v.passes a d → v.finds m := by
  induction h using ReflTransGen.head_induction_on with
  | refl => exact fun {d} hd => (hclosed m d hd).1 rfl hm
  | head hstep hrest ih =>
    intro d hd
    obtain hstep | hindex := hstep
    · obtain ⟨d', hd'⟩ | ⟨hoff, -⟩ := hx.passes_of_moves hask hclosed hd hstep
      · exact ih hd'
      · cases hoff
    · have hfinds := (hclosed _ d hd).2 _ (hx.graph.mem_outEdges.2 ⟨hindex, rfl⟩)
      exact finds_of_findsFlow hask hfinds hrest hm

theorem finds_of_flowsInto (hx : Traced p x) (hask : Complete x ask) {k : Nat}
    (hclosed : ∀ m d, v.passes m d → AheadAll x ask (some k) v m d) {a m : NodeId}
    (hm : isDereferenced x m = true) (h : FlowsInto x.subject.pointers k a m) {d : Context}
    (hd : v.passes a d) : v.finds m := by
  obtain ⟨m', e, hmoves, hedge, hflows⟩ := h
  induction hmoves using ReflTransGen.head_induction_on generalizing d with
  | refl =>
    obtain hfield | hindex := hedge
    · have hahead := (hclosed _ d hd).2 _ (hx.graph.mem_outEdges.2 ⟨hfield, rfl⟩)
      exact finds_of_findsFlow hask (hahead.1 rfl) hflows hm
    · have hfinds := (hclosed _ d hd).2 _ (hx.graph.mem_outEdges.2 ⟨hindex, rfl⟩)
      exact finds_of_findsFlow hask hfinds hflows hm
  | head hstep hrest ih =>
    obtain ⟨d', hd'⟩ | ⟨hoff, hfinds⟩ := hx.passes_of_moves hask hclosed hd hstep
    · exact ih hd'
    · -- the first field is looked for, so whatever the base flows to is found
      obtain rfl : k = 0 := Option.some.inj hoff
      have hfollows : Follows x.subject.pointers m' e := hedge.imp .first id
      exact finds_of_findsFlow hask hfinds (((flows_of_moves hrest).tail hfollows).trans hflows) hm

end flowsTo

theorem has_of_flowsTo (hx : Traced p x) (hask : Complete x ask) {offset : Option Nat}
    (h : (body x ask steps ⟨.flowsTo offset, n, c⟩).Yields s r t) {v m : NodeId}
    (hv : v = n ∨ ⟨n, v, .addr⟩ ∈ x.graph.edges) (hreaches : Reaches x.subject.pointers offset v m)
    (hm : isDereferenced x m = true) : r.Has m := by
  obtain ⟨trail, hstart, hfinds, hclosed⟩ := closed_of_flowsTo h
  have hpasses : trail.passes v c := by
    obtain rfl | he := hv
    · exact hstart
    · exact (hclosed n c hstart).2 _ (hx.graph.mem_outEdges.2 ⟨he, rfl⟩)
  rw [← hfinds]
  cases offset with
  | none => exact hx.finds_of_flows hask hclosed hm hreaches hpasses
  | some k => exact hx.finds_of_flowsInto hask hclosed hm hreaches hpasses

/-! ## aliases -/

theorem has_of_aliases (hx : Traced p x) (hask : Complete x ask)
    (h : (body x ask steps ⟨.aliases, n, c⟩).Yields s r t) (hn : n < x.graph.valueCount)
    {m o : Nat} (hm : m < x.graph.valueCount) (hderef : isDereferenced x m = true)
    (hon : o ∈ x.subject.pointers.of n) (hom : o ∈ x.subject.pointers.of m)
    (ho : x.subject.pointers.Tracked o) : r.Has m := by
  obtain ⟨pts, hpts, hflows⟩ := answered_of_aliases h
  have hhas := hask.pointsTo hpts hn o hon
  obtain ⟨d, found, hfound, hsub⟩ := hflows _ o hhas (x.graph.asObj_objNode o) ho.known
  obtain ⟨v₀, haddr, hreaches⟩ := reaches_of_mem hx.finished hx.pointers
    (fun e he => hx.isLocal.copy_of_isFlow he) hx.memory (hx.graph.valueCount ▸ hm) hom ho
  refine hsub m (hask.flowsTo hfound (.inr ?_) hreaches hderef)
  split
  · exact haddr
  · next hnone =>
    have hlaid := laidAt_of_mem hx.finished hx.pointers hon
    rw [← hlaid.root (Option.not_isSome_iff_eq_none.1 hnone)]
    exact haddr

/-- A query is complete if the answers to its questions are. -/
theorem complete_body (hx : Traced p x) (hask : Complete x ask) (steps : Nat) :
    Complete x (body x ask steps) where
  pointsTo h hn _ ho := by
    obtain ⟨_, _, h⟩ := h
    exact hx.has_of_pointsTo hask h hn ho
  flowsTo h _ _ hv hreaches hm := by
    obtain ⟨_, _, h⟩ := h
    exact hx.has_of_flowsTo hask h hv hreaches hm
  aliases h hn _ _ hm hderef hon hom ho := by
    obtain ⟨_, _, h⟩ := h
    exact hx.has_of_aliases hask h hn hm hderef hon hom ho

/-- Queries of which nothing is kept are complete, however deep. -/
theorem complete_plain (hx : Traced p x) (steps depth : Nat) :
    Complete x (plain x steps depth) := by
  induction depth with
  | zero =>
    have hnone {q : Query} {r : Reached} : ¬Answers (plain x steps 0) q r := by
      rintro ⟨_, _, h⟩
      exact Demand.not_yields_throw h
    exact ⟨fun h => absurd h hnone, fun h => absurd h hnone, fun h => absurd h hnone⟩
  | succ depth ih => exact hx.complete_body ih steps

end Traced

/-- **A solved points-to query of a new solver misses no object** of the points-to set, if its
questions never come back to a query in process.  No value is passed between functions or threads,
a variable index reaches all fields, and what a store passes on to a load it passes on through an
object that flows-to queries can track. -/
theorem pointsTo_complete {p : Program} {config : Config} {subject : Subject} {par : Parallelism}
    {budget : Int} {log : Log} {v : ValueId} {c : Context} {r : Reached} {s : AliasSolver}
    (hp : p.Finished) (hprepare : Subject.prepare p config = .ok subject)
    (hconfig : config.variableIndex = true) (hlocal : subject.pointers.graph.IsLocal)
    (hmemory : subject.pointers.PassesTracked) (hv : v < p.values.size)
    (hrun : (pointsTo ⟨subject, par⟩ v c).run.run { budget, log } = (.ok r, s))
    (hsolved : r.isSolved = true)
    (hunfolds : ∃ r₀, Unfolds ⟨subject, par⟩ ⟨.pointsTo, v, c⟩ r₀) :
    ∀ o ∈ subject.pointers.of v, ∃ d, r.holds (subject.pointers.graph.objNode o) d = true := by
  have hprepared := Subject.prepared hprepare
  have hx : Traced p ⟨subject, par⟩ :=
    ⟨hp, hprepared.program, hconfig ▸ hprepared.pointers, hlocal, hmemory⟩
  obtain ⟨r₀, hr₀⟩ := hunfolds
  obtain rfl := ((rested_new budget log).ask hrun hsolved).2 r₀ hr₀
  obtain ⟨depth, steps, s', t', hyields⟩ := hr₀
  have hcount : v < subject.pointers.graph.valueCount := hx.graph.valueCount ▸ hv
  exact (hx.complete_plain steps depth).pointsTo ⟨s', t', hyields⟩ hcount

/-! ## programs -/

/-- Whether a new solver answers a query about a program, and the answer passes a test. -/
def answerTo (script : List Command) (v : ValueId) (test : AliasScope → Reached → Bool) : Bool :=
  (Subject.prepare (Builder.ofScript script) {}).toOption.any fun subject =>
    (Parallelism.analyze subject (.collect subject)).toOption.any fun par =>
      ((pointsTo ⟨subject, par⟩ v .global).run.run
        { budget := 1000, log := default }).1.toOption.any fun r =>
          r.isSolved && decide subject.pointers.graph.IsLocal && test ⟨subject, par⟩ r

theorem exists_of_answerTo {script : List Command} {v : ValueId}
    {test : AliasScope → Reached → Bool} (h : answerTo script v test = true) : ∃ subject par r s,
      Subject.prepare (Builder.ofScript script) {} = .ok subject ∧
      Parallelism.analyze subject (.collect subject) = .ok par ∧
      (pointsTo ⟨subject, par⟩ v .global).run.run { budget := 1000, log := default } = (.ok r, s) ∧
      r.isSolved = true ∧ subject.pointers.graph.IsLocal ∧ test ⟨subject, par⟩ r = true := by
  obtain ⟨subject, hsubject, h⟩ := exists_of_any_toOption h
  obtain ⟨par, hpar, h⟩ := exists_of_any_toOption h
  obtain ⟨r, hrun, h⟩ := exists_of_any_toOption h
  simp only [Bool.and_eq_true, decide_eq_true_eq] at h
  exact ⟨subject, par, r, _, hsubject, hpar, Prod.ext hrun rfl, h.1.1, h.1.2, h.2⟩

/-- Whether a query ends although nothing is kept. -/
def unfolds (x : AliasScope) (v : ValueId) : Bool :=
  ((plain x 20 20 ⟨.pointsTo, v, .global⟩).run.run
    { budget := 0, log := default, left := 1000 }).1.toOption.any fun _ => true

theorem exists_unfolds {x : AliasScope} {v : ValueId} (h : unfolds x v = true) :
    ∃ r₀, Unfolds x ⟨.pointsTo, v, .global⟩ r₀ := by
  obtain ⟨r₀, hplain, -⟩ := exists_of_any_toOption h
  exact ⟨r₀, 20, 20, _, _, Prod.ext hplain rfl⟩

/-- A pointer is stored in a field and read from it again. -/
def storedInField : List Command :=
  [.declare "main" 0, .body 0, .append 0 0 (.alloc false 0), .append 0 0 (.alloc false 2),
    .append 0 0 (.project 2 (some 1) none), .append 0 0 (.project 2 (some 1) none),
    .append 0 0 (.store 3 1), .append 0 0 (.load 4), .append 0 0 (.ret none)]

/-- The query for the pointer that is read finds the object. -/
theorem pointsTo_complete_storedInField : ∃ subject par r s,
    Subject.prepare (Builder.ofScript storedInField) {} = .ok subject ∧
    Parallelism.analyze subject (.collect subject) = .ok par ∧
    (pointsTo ⟨subject, par⟩ 5 .global).run.run { budget := 1000, log := default } = (.ok r, s) ∧
    1 ∈ subject.pointers.of 5 ∧ ∃ d, r.holds (subject.pointers.graph.objNode 1) d = true := by
  have heval : answerTo storedInField 5 (fun x _ => unfolds x 5 &&
      decide (1 ∈ x.subject.pointers.of 5 ∧ x.subject.pointers.PassesTracked)) = true := by
    decide +kernel
  obtain ⟨subject, par, r, s, hsubject, hpar, hrun, hsolved, hlocal, htest⟩ :=
    exists_of_answerTo heval
  rw [Bool.and_eq_true, decide_eq_true_eq] at htest
  obtain ⟨hunfolds, hmem, hmemory⟩ := htest
  exact ⟨subject, par, r, s, hsubject, hpar, hrun, hmem,
    pointsTo_complete (Builder.finished_ofScript (by decide +kernel)) hsubject rfl hlocal hmemory
      (by decide +kernel) hrun hsolved (exists_unfolds hunfolds) 1 hmem⟩

/-- A pointer that is advanced by a field in a loop. -/
def advancedInLoop : List Command :=
  [.declare "main" 0, .body 0, .block 0, .block 0, .append 0 0 (.alloc false 3),
    .append 0 0 (.jump 1), .append 0 1 (.phi [(1, 0)]), .append 0 1 (.project 2 (some 1) none),
    .incoming 2 3 1, .const 0, .append 0 1 (.branch 4 1 2), .append 0 2 (.ret none)]

/-- A solved query that comes back to a query in process misses objects of the points-to set. -/
theorem pointsTo_incomplete_advancedInLoop :
    ¬∀ (p : Program) (config : Config) (subject : Subject) (par : Parallelism) (budget : Int)
      (log : Log) (v : ValueId) (c : Context) (r : Reached) (s : AliasSolver),
      p.Finished → Subject.prepare p config = .ok subject →
      Parallelism.analyze subject (.collect subject) = .ok par → config.variableIndex = true →
      subject.pointers.graph.IsLocal → v < p.values.size →
      (pointsTo ⟨subject, par⟩ v c).run.run { budget, log } = (.ok r, s) → r.isSolved = true →
      ∀ o ∈ subject.pointers.of v, ∃ d, r.holds (subject.pointers.graph.objNode o) d = true := by
  intro hall
  have heval : answerTo advancedInLoop 2 (fun x r => decide (3 ∈ x.subject.pointers.of 2 ∧
      ¬r.contains (x.graph.objNode 3) = true)) = true := by
    decide +kernel
  obtain ⟨subject, par, r, s, hsubject, hpar, hrun, hsolved, hlocal, htest⟩ :=
    exists_of_answerTo heval
  obtain ⟨hmem, hmissed⟩ := of_decide_eq_true htest
  obtain ⟨d, hd⟩ := hall _ {} subject par 1000 default 2 .global r s
    (Builder.finished_ofScript (by decide +kernel)) hsubject hpar rfl hlocal
    (by decide +kernel) hrun
    hsolved 3 hmem
  exact hmissed (Reached.contains_of_holds hd)

/-- A pointer is stored through what an unrecognised function returns, and read from there. -/
def storedAnywhere : List Command :=
  [.declare "main" 0, .declare "ext" 0, .body 0, .append 0 0 (.alloc false 0),
    .append 0 0 (.call (.direct 1) []), .append 0 0 (.store 3 2), .append 0 0 (.load 3),
    .append 0 0 (.ret none)]

/-- A query that unfolds misses what goes through unknown memory. -/
theorem pointsTo_incomplete_storedAnywhere : ∃ subject par r s,
    Subject.prepare (Builder.ofScript storedAnywhere) {} = .ok subject ∧
    Parallelism.analyze subject (.collect subject) = .ok par ∧
    subject.pointers.graph.IsLocal ∧
    (pointsTo ⟨subject, par⟩ 4 .global).run.run { budget := 1000, log := default } = (.ok r, s) ∧
    r.isSolved = true ∧ (∃ r₀, Unfolds ⟨subject, par⟩ ⟨.pointsTo, 4, .global⟩ r₀) ∧
    2 ∈ subject.pointers.of 4 ∧ ∀ d, ¬r.holds (subject.pointers.graph.objNode 2) d = true := by
  have heval : answerTo storedAnywhere 4 (fun x r => unfolds x 4 &&
      decide (2 ∈ x.subject.pointers.of 4 ∧ ¬r.contains (x.graph.objNode 2) = true)) = true := by
    decide +kernel
  obtain ⟨subject, par, r, s, hsubject, hpar, hrun, hsolved, hlocal, htest⟩ :=
    exists_of_answerTo heval
  rw [Bool.and_eq_true, decide_eq_true_eq] at htest
  obtain ⟨hunfolds, hmem, hmissed⟩ := htest
  exact ⟨subject, par, r, s, hsubject, hpar, hlocal, hrun, hsolved, exists_unfolds hunfolds, hmem,
    fun d hd => hmissed (Reached.contains_of_holds hd)⟩

end AliasSolver

end DataRace
