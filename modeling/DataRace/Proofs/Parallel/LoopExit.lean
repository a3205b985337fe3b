import DataRace.Proofs.Flow.ExitCondition
import DataRace.Proofs.Flow.LoopRun
import DataRace.Proofs.Parallel.Join
import DataRace.Proofs.Program.Script

/-!
# DataRace.Proofs.Parallel.LoopExit

Which threads a join loop waits for.

A join loop stands for a spawn loop when both count alike, that is, when start,
step, bound and comparison agree.  Where the sites are in their loops is not
compared: a spawn in front of the test runs once more than a join behind it.
So a way through either loop is followed until the comparison at its exit lets
control out (`CountingLoop.Completes`), and the indices of the thread ids on
these ways agree if the join loop keeps up (`CountingLoop.KeepsUp`).

* `Loop.tested_of_exitCondition` — the exit condition says when control leaves;
* `CountingLoop.body_spec`, `CountingLoop.tested` — the loop around a site;
* `CountingLoop.indices_sublist` — a join loop that keeps up;
* `CountingLoop.not_forall_indices_sublist` — one that misses a thread.
-/

namespace DataRace

open Std

/-! ## the test of a loop -/

/-- The value in an iteration, counted from 0, if start and step are constants. -/
def Recurrence.at? (r : Recurrence) (k : Nat) : Option Int64 :=
  match r.start, r.step with
  | .const start, .const step => some (start + Int64.ofNat k * step)
  | _, _ => none

namespace Loop

variable {p : Program} {f : FuncId} {loops : Loops} {l : Loop}

/-- The value of an operand in an iteration of a loop: a constant, or a recurrence of the loop. -/
def operandAt? (p : Program) (loops : Loops) (l : Loop) (k : Nat) (v : ValueId) : Option Int64 :=
  match p.constValue v with
  | some c => some c
  | none =>
    match Induction.recurrence p loops v with
    | .ok (some r) => if r.header = l.header then r.at? k else none
    | _ => none

/-- Where the comparison at the end of a block leads in an iteration, casts aside. -/
def target? (p : Program) (loops : Loops) (l : Loop) (e : BlockId) (k : Nat) : Option BlockId :=
  match (p.block e).terminator.map p.op with
  | some (.branch cond whenTrue whenFalse) =>
    match p.defOp cond with
    | some (.compare pred lhs rhs) => do
      let a ← operandAt? p loops l k (p.stripCasts lhs)
      let b ← operandAt? p loops l k (p.stripCasts rhs)
      return if pred.eval a b then whenTrue else whenFalse
    | _ => none
  | _ => none

/-- Control may pass along an edge in an iteration; at the block `e` it goes where the comparison
leads. -/
def Passes (p : Program) (loops : Loops) (l : Loop) (e b : BlockId) (k : Nat) (c : BlockId) :
    Prop :=
  c ∈ (p.block b).succs ∧ (b = e → ∀ t ∈ target? p loops l e k, c = t)

instance (p : Program) (loops : Loops) (l : Loop) (e b : BlockId) (k : Nat) (c : BlockId) :
    Decidable (Passes p loops l e b k c) :=
  inferInstanceAs (Decidable (_ ∧ (_ → ∀ t ∈ target? p loops l e k, c = t)))

end Loop

namespace Induction

variable {p : Program} {loops : Loops}

/-- An induction variable of a loop has a recurrence of the loop and is no constant. -/
theorem isInductionVariable_spec {lp : Loop} {v : ValueId}
    (h : isInductionVariable p loops lp v = .ok true) :
    p.constValue v = none ∧ ∃ r, recurrence p loops v = .ok (some r) ∧ r.header = lp.header := by
  obtain ⟨o, ho, h⟩ := exists_of_bind_eq_ok h
  have h := Except.ok.inj h
  rw [Bool.and_eq_true] at h
  obtain ⟨hheader, hphi⟩ := h
  obtain ⟨r, rfl, hheader⟩ := (Option.any_eq_true _ _).1 hheader
  refine ⟨?_, r, ho, of_decide_eq_true hheader⟩
  unfold Program.defOp Program.defInst at hphi
  unfold Program.constValue
  split at hphi
  · next hdef => rw [hdef]
  · cases hphi

end Induction

namespace Loop

variable {p : Program} {f : FuncId} {loops : Loops} {l : LoopId} {e x : BlockId}
  {cond : ExitCondition} {r : Recurrence} {start step bound : Int64} {k : Nat}

theorem mem_exitEdges_iff {l : Loop} {b c : BlockId} :
    (b, c) ∈ l.exitEdges p ↔ b ∈ l.blocks ∧ c ∈ (p.block b).succs ∧ c ∉ l.blocks := by
  simp only [exitEdges, List.mem_flatMap, TreeSet.mem_toList, List.mem_map, List.mem_filter,
    Prod.mk.injEq, Bool.not_eq_true', ← Bool.not_eq_true, contains_iff]
  constructor
  · rintro ⟨b', hb, c', ⟨hc, hout⟩, rfl, rfl⟩
    exact ⟨hb, hc, hout⟩
  · rintro ⟨hb, hc, hout⟩
    exact ⟨b, hb, c, ⟨hc, hout⟩, rfl, rfl⟩

/-- A branch by which control can leave the loop has one target in it and one outside. -/
theorem branch_spec (hp : p.Finished) {l : Loop} (hl : l.Natural p f)
    (hedge : (e, x) ∈ l.exitEdges p) {v : ValueId} {whenTrue whenFalse : BlockId}
    (hterm : (p.block e).terminator.map p.op = some (.branch v whenTrue whenFalse)) :
    (whenTrue ∈ l.blocks ↔ whenFalse ∉ l.blocks) := by
  obtain ⟨he, hx, hout⟩ := mem_exitEdges_iff.1 hedge
  obtain ⟨c, hc, hin⟩ := hl.exists_succ he
  obtain ⟨t, ht, -, hsucc, -⟩ := hp.exists_terminator (hp.succ_spec hx).1
  rw [ht, Option.map_some, Option.some.injEq] at hterm
  rw [hsucc, hterm, Operation.successors] at hx hc
  split at hx
  · next heq =>
    rw [List.mem_singleton] at hx
    rw [if_pos heq, List.mem_singleton] at hc
    exact absurd (hc ▸ hin) (hx ▸ hout)
  · next hne =>
    rw [if_neg hne] at hc
    simp only [List.mem_cons, List.not_mem_nil, or_false] at hx hc
    rcases hx with rfl | rfl <;> rcases hc with rfl | rfl <;> tauto

/-- The comparison leads on in the loop exactly where the exit condition holds. -/
theorem target?_spec (hp : p.Finished) (hl : (loops.get l).Natural p f)
    (h : Induction.exitCondition p loops l e = .ok (some cond))
    (hr : Induction.recurrence p loops cond.indvar = .ok (some r)) (hstart : r.start = .const start)
    (hstep : r.step = .const step) (hbound : p.constValue cond.bound = some bound)
    (hedge : (e, x) ∈ (loops.get l).exitEdges p) :
    ∃ t, target? p loops (loops.get l) e k = some t ∧
      (t ∈ (loops.get l).blocks ↔ cond.pred.eval (start + Int64.ofNat k * step) bound = true) := by
  obtain ⟨v, whenTrue, whenFalse, pred, lhs, rhs, hterm, hdef, hindvar, q, hpred, hsides⟩ :=
    Induction.exitCondition_spec h
  obtain ⟨hnone, r', hr', hheader⟩ := Induction.isInductionVariable_spec hindvar
  cases hr.symm.trans hr'
  have hbranch := branch_spec hp hl hedge hterm
  have hvar : operandAt? p loops (loops.get l) k cond.indvar =
      some (start + Int64.ofNat k * step) := by
    simp only [operandAt?, hnone, hr, if_pos hheader, Recurrence.at?, hstart, hstep]
  have hconst : operandAt? p loops (loops.get l) k cond.bound = some bound := by
    simp only [operandAt?, hbound]
  rcases hsides with ⟨hlhs, hrhs, rfl⟩ | ⟨hrhs, hlhs, rfl⟩
  · rw [hlhs] at hvar
    rw [hrhs] at hconst
    refine ⟨_, by simp only [target?, hterm, hdef, hvar, hconst]; rfl, ?_⟩
    rw [mem_branch_iff hbranch, hpred]
    split <;> simp [Predicate.eval_inverse]
  · rw [hrhs] at hvar
    rw [hlhs] at hconst
    refine ⟨_, by simp only [target?, hterm, hdef, hvar, hconst]; rfl, ?_⟩
    rw [mem_branch_iff hbranch, hpred]
    split <;> simp [Predicate.eval_inverse, Predicate.eval_swap]

/-- A loop that is left at one block only is left there when its exit condition fails. -/
theorem tested_of_exitCondition (hp : p.Finished) (hl : (loops.get l).Natural p f)
    (h : Induction.exitCondition p loops l e = .ok (some cond))
    (hr : Induction.recurrence p loops cond.indvar = .ok (some r)) (hstart : r.start = .const start)
    (hstep : r.step = .const step) (hbound : p.constValue cond.bound = some bound)
    (hedge : (e, x) ∈ (loops.get l).exitEdges p)
    (honly : ∀ y ∈ (loops.get l).exitEdges p, y.1 = e) :
    Tested (loops.get l) (Passes p loops (loops.get l) e) e fun k =>
      cond.pred.eval (start + Int64.ofNat k * step) bound = true := by
  have htarget (k : Nat) := target?_spec (k := k) hp hl h hr hstart hstep hbound hedge
  constructor
  case leaves =>
    rintro b k c hb ⟨hc, htest⟩ hout
    obtain rfl : b = e := honly (b, c) (mem_exitEdges_iff.2 ⟨hb, hc, hout⟩)
    obtain ⟨t, ht, hiff⟩ := htarget k
    refine ⟨rfl, fun hholds => hout ?_⟩
    rw [htest rfl t ht]
    exact hiff.2 hholds
  case stays =>
    rintro k c ⟨-, htest⟩ hc
    obtain ⟨t, ht, hiff⟩ := htarget k
    exact hiff.1 (htest rfl t ht ▸ hc)

end Loop

/-! ## equal trip counts -/

/-- Whether start and step of a recurrence are constants. -/
def Recurrence.IsConst (r : Recurrence) : Prop :=
  ∃ start step, r.start = .const start ∧ r.step = .const step

instance : (r : Recurrence) → Decidable r.IsConst
  | ⟨_, .const start, .const step⟩ => .isTrue ⟨start, step, rfl, rfl⟩
  | ⟨_, .const _, .value _⟩ => .isFalse nofun
  | ⟨_, .value _, _⟩ => .isFalse nofun

namespace Induction

variable {p : Program}

/-- Constants with the same bound are equal. -/
theorem eq_of_sameBound {a b : ValueId} {c d : Int64} (ha : p.constValue a = some c)
    (hb : p.constValue b = some d) (h : sameBound p a b = true) : c = d := by
  have hdef {v : ValueId} {c : Int64} (hv : p.constValue v = some c) :
      (p.value v).definition = .const c ∧ p.stripCasts v = v := by
    have hdef : (p.value v).definition = .const c := by
      unfold Program.constValue at hv
      split at hv
      · next hdef =>
        cases hv
        exact hdef
      · cases hv
    refine ⟨hdef, ?_⟩
    have hnone : p.castSource? v = none := by
      simp only [Program.castSource?, Program.defOp, Program.defInst, hdef, Option.map_none]
    rw [Program.stripCasts, Program.followOlder, hnone]
  obtain ⟨hadef, hastrip⟩ := hdef ha
  obtain ⟨hbdef, hbstrip⟩ := hdef hb
  rw [sameBound, hastrip, hbstrip, Bool.or_eq_true, beq_iff_eq, hadef, hbdef] at h
  rcases h with rfl | h
  · exact Option.some.inj (ha.symm.trans hb)
  · exact eq_of_beq h

/-- Recurrences of constants with the same start and step have the same values. -/
theorem at?_eq_of_sameStartAndStep {r q : Recurrence} (hr : r.IsConst) (hq : q.IsConst)
    (h : sameStartAndStep p r q = true) : r.at? = q.at? := by
  obtain ⟨start, step, hstart, hstep⟩ := hr
  obtain ⟨start', step', hstart', hstep'⟩ := hq
  rw [sameStartAndStep, Bool.and_eq_true, hstart, hstart', hstep, hstep'] at h
  obtain rfl : start = start' := eq_of_beq h.1
  obtain rfl : step = step' := eq_of_beq h.2
  funext k
  simp only [Recurrence.at?, hstart, hstart', hstep, hstep']

/-- The iterations of a loop are counted by its exit condition. -/
theorem tripCount_spec {loops : Loops} {l : LoopId} {e : BlockId} {trip : TripCount}
    (h : tripCount p loops l e = .ok (some trip)) :
    exitCondition p loops l e = .ok (some trip.cond) ∧
      recurrence p loops trip.cond.indvar = .ok (some trip.recurrence) := by
  obtain ⟨o, ho, h⟩ := exists_of_bind_eq_ok h
  cases o with
  | none => cases h
  | some cond =>
    obtain ⟨o, hr, h⟩ := exists_of_bind_eq_ok h
    cases o with
    | none => cases h
    | some r =>
      cases h
      exact ⟨ho, hr⟩

end Induction

/-! ## sites in counting loops -/

namespace ThreadSite

variable {s : Subject} {i : InstId} {t : ThreadSite}

/-- A counting loop around a site: constants say how the thread id moves and when control leaves,
which it does at one block only. -/
structure CountingLoop (s : Subject) (t : ThreadSite) where
  loop : LoopId
  exiting : BlockId
  index : Recurrence
  trip : TripCount
  loop_eq : t.loop = some loop
  exiting_eq : t.exiting = some exiting
  index_eq : t.offset = some index
  trip_eq : t.tripCount s = .ok (some trip)
  header_eq : index.header = ((s.flowOf t.site).loops.get loop).header
  index_const : index.IsConst
  trip_const : trip.recurrence.IsConst
  bound_const : ∃ c, s.program.constValue trip.cond.bound = some c
  only : ∀ y ∈ ((s.flowOf t.site).loops.get loop).exitEdges s.program, y.1 = exiting

namespace CountingLoop

/-- The counting loop around a site, if there is one. -/
def find? (s : Subject) (t : ThreadSite) : Option (CountingLoop s t) :=
  match loop_eq : t.loop, exiting_eq : t.exiting, index_eq : t.offset, trip_eq : t.tripCount s with
  | some loop, some exiting, some index, .ok (some trip) =>
    let body := (s.flowOf t.site).loops.get loop
    if h : index.header = body.header ∧ index.IsConst ∧ trip.recurrence.IsConst ∧
        (s.program.constValue trip.cond.bound).isSome ∧
        ∀ y ∈ body.exitEdges s.program, y.1 = exiting then
      some { loop, exiting, index, trip, loop_eq, exiting_eq, index_eq, trip_eq,
             header_eq := h.1
             index_const := h.2.1
             trip_const := h.2.2.1
             bound_const := Option.isSome_iff_exists.1 h.2.2.2.1
             only := h.2.2.2.2 }
    else
      none
  | _, _, _, _ => none

/-- The blocks of the loop. -/
def body (a : CountingLoop s t) : Loop := (s.flowOf t.site).loops.get a.loop

/-- A way through the loop until control leaves it, as the comparison at the exit says. -/
def Completes (a : CountingLoop s t) (vs : List (BlockId × Nat)) : Prop :=
  a.body.Completes (Loop.Passes s.program (s.flowOf t.site).loops a.body a.exiting) vs

instance (a : CountingLoop s t) (vs : List (BlockId × Nat)) : Decidable (a.Completes vs) :=
  decidable_of_iff (a.body.Walk
      (Loop.Passes s.program (s.flowOf t.site).loops a.body a.exiting) vs ∧
    ∃ v ∈ vs.head?, ∃ c ∈ (s.program.block v.1).succs, c ∉ a.body.blocks ∧
      Loop.Passes s.program (s.flowOf t.site).loops a.body a.exiting v.1 v.2 c) <| by
    refine and_congr_right fun _ => exists_congr fun v => and_congr_right fun _ => ?_
    exact exists_congr fun c => and_iff_right_of_imp fun h => h.2.1

/-- The indices of the thread ids that the site handles on a way through the loop. -/
def indices (a : CountingLoop s t) (vs : List (BlockId × Nat)) : List (Option Int64) :=
  (Loop.iterations vs (s.program.blockOf t.site)).reverse.map a.index.at?

/-- Whether control goes on in an iteration. -/
def GoesOn (a : CountingLoop s t) (k : Nat) : Prop :=
  ∃ v c, a.trip.recurrence.at? k = some v ∧ s.program.constValue a.trip.cond.bound = some c ∧
    a.trip.cond.pred.eval v c = true

section

variable {p : Program} {c : Config} (hp : p.Finished) (hs : Subject.prepare p c = .ok s)
  (ht : ThreadSite.of s i = .ok t) (hi : i < p.insts.size) (a : CountingLoop s t)

include hp hs ht hi

theorem loops_eq : (s.flowOf t.site).loops = p.loops (p.funcOf i) := by
  obtain rfl := (gathered ht).site
  rw [(Subject.prepared hs).flowOf hp.wellFormed hi]
  rfl

/-- The loop is one around the site, with the exit recorded for it. -/
theorem body_spec : a.body.Natural p (p.funcOf i) ∧ p.blockOf i ∈ a.body.blocks ∧
    ∃ x, (a.exiting, x) ∈ a.body.exitEdges p ∧ (p.isSpawn i = false → ∀ b ∈ a.body.latches,
      (FlowGraph.forward p (p.funcOf i)).Dom (p.blockOf i) b) := by
  have h := Subject.prepared hs
  obtain rfl := h.program
  have hgathered := gathered ht
  obtain ⟨l, x, hloop, hexit⟩ := hgathered.exiting a.exiting a.exiting_eq
  obtain rfl : a.loop = l := Option.some.inj (a.loop_eq.symm.trans hloop)
  have hof := hgathered.loopOfInst_eq hloop
  obtain rfl := hgathered.site
  have hbody : a.body = (s.program.loops (s.program.funcOf t.site)).get a.loop := by
    rw [body, loops_eq hp hs ht hi]
  rw [loops_eq hp hs ht hi] at hof hexit
  rw [hbody]
  obtain ⟨hlt, hsite⟩ := Loops.mem_around_iff.1 (Loops.mem_around_of_loopOf hof)
  have hnatural := Loops.natural_get hp.linked hlt
  obtain ⟨hedge, hlatches⟩ := countingExit?_spec hexit
  refine ⟨hnatural, hsite, x, hedge, fun hspawn b hb => ?_⟩
  have hfunc : (s.program.block (s.program.blockOf t.site)).func = s.program.funcOf t.site :=
    (hp.wellFormed.mem_blocks_iff.1 (hp.mem_blocks_of_reached _ (hnatural.dom hsite).reached)).2
  have hdom := hlatches hspawn b hb
  rw [hfunc] at hdom
  have hflow := h.flowOf hp.wellFormed hi
  rw [Subject.flowOf] at hflow
  rw [hflow] at hdom
  exact hp.dominates_iff.1 hdom

/-- Control leaves the loop when it does not go on. -/
theorem tested : Loop.Tested a.body (Loop.Passes s.program (s.flowOf t.site).loops a.body a.exiting)
    a.exiting a.GoesOn := by
  obtain ⟨hnatural, -, x, hedge, -⟩ := a.body_spec hp hs ht hi
  obtain ⟨start, step, hstart, hstep⟩ := a.trip_const
  obtain ⟨bound, hbound⟩ := a.bound_const
  have htrip := a.trip_eq
  simp only [tripCount, a.loop_eq, a.exiting_eq] at htrip
  obtain ⟨hcond, hr⟩ := Induction.tripCount_spec htrip
  have hgoes : a.GoesOn = fun k =>
      a.trip.cond.pred.eval (start + Int64.ofNat k * step) bound = true := by
    funext k
    simp [GoesOn, Recurrence.at?, hstart, hstep, hbound]
  rw [← (Subject.prepared hs).program] at hp hnatural hedge
  rw [hgoes]
  exact Loop.tested_of_exitCondition hp hnatural hcond hr hstart hstep hbound hedge a.only

end

end CountingLoop

end ThreadSite

namespace JoinMatch

variable {s : Subject} {t u : ThreadSite} {x : BlockId}

/-- Where the exit of a join loop blocks code, the sites count alike. -/
theorem loopExit?_spec (h : loopExit? s t u = .ok (some x)) (a : t.CountingLoop s)
    (b : u.CountingLoop s) : Induction.sameTripCount s.program a.trip b.trip = true ∧
      Induction.sameStartAndStep s.program a.index b.index = true := by
  simp only [loopExit?, a.loop_eq, b.loop_eq, a.trip_eq, b.trip_eq, a.index_eq, b.index_eq, bind,
    Except.bind] at h
  split at h
  · next hx hy _ =>
    cases hx
    cases hy
    split at h
    · next hsame =>
      rw [Bool.and_eq_true, Bool.and_eq_true] at hsame
      exact hsame.1
    · cases h
  · cases h

end JoinMatch

namespace ThreadSite.CountingLoop

/-! ## matched loops -/

variable {p : Program} {c : Config} {s : Subject} {t u : ThreadSite} {i j : Nat} {x : BlockId}

/-- What makes a join handle the thread ids of a spawn when the two sites count alike. -/
structure KeepsUp (b : CountingLoop s u) (a : CountingLoop s t) : Prop where
  /-- The comparisons agree on the values that are compared. -/
  alike : ∀ {k v c}, a.trip.recurrence.at? k = some v →
    s.program.constValue a.trip.cond.bound = some c →
      a.trip.cond.pred.eval v c = b.trip.cond.pred.eval v c
  /-- The spawn loop makes its comparison in every iteration. -/
  every : ∀ l ∈ a.body.latches,
    (FlowGraph.forward s.program (s.program.funcOf t.site)).Dom a.exiting l
  /-- The spawn runs at most once in an iteration. -/
  once : s.program.blockOf t.site ∉ a.body.ahead s.program (s.program.blockOf t.site)
  /-- The spawn runs behind the comparison of its loop, or the join before that of its own. -/
  placed : a.exiting ≠ s.program.blockOf t.site ∧
      (FlowGraph.forward s.program (s.program.funcOf t.site)).Dom a.exiting
        (s.program.blockOf t.site) ∨
    (FlowGraph.forward s.program (s.program.funcOf t.site)).Dom (s.program.blockOf u.site) b.exiting

/-- Sites that count alike go on in the same iterations. -/
theorem KeepsUp.goesOn_iff {a : CountingLoop s t} {b : CountingLoop s u} (h : b.KeepsUp a)
    (hsame : Induction.sameTripCount s.program a.trip b.trip = true) (k : Nat) :
    a.GoesOn k ↔ b.GoesOn k := by
  rw [Induction.sameTripCount, Bool.and_eq_true, Induction.sameExitCondition,
    Bool.and_eq_true] at hsame
  obtain ⟨hstart, -, hbound⟩ := hsame
  have hat := Induction.at?_eq_of_sameStartAndStep a.trip_const b.trip_const hstart
  obtain ⟨c, hc⟩ := a.bound_const
  obtain ⟨d, hd⟩ := b.bound_const
  obtain rfl := Induction.eq_of_sameBound hc hd hbound
  constructor
  · rintro ⟨v, c', hv, hc', heval⟩
    obtain rfl : c = c' := Option.some.inj (hc.symm.trans hc')
    exact ⟨v, c, hat ▸ hv, hd, (h.alike hv hc).symm.trans heval⟩
  · rintro ⟨v, c', hv, hc', heval⟩
    obtain rfl : c = c' := Option.some.inj (hd.symm.trans hc')
    have hv : a.trip.recurrence.at? k = some v := hat ▸ hv
    exact ⟨v, c, hv, hc, (h.alike hv hc).trans heval⟩

/-- **A matched join loop waits for the threads of the spawn loop** in the order they are started,
if it keeps up with it. -/
theorem indices_sublist (hp : p.Finished) (hs : Subject.prepare p c = .ok s)
    (hspawn : p.isSpawn i = true) (hjoin : p.isJoin j = true) (hfunc : p.funcOf j = p.funcOf i)
    (ht : ThreadSite.of s i = .ok t) (hu : ThreadSite.of s j = .ok u)
    (hexit : JoinMatch.loopExit? s t u = .ok (some x))
    (a : CountingLoop s t) (b : CountingLoop s u) (hkeeps : b.KeepsUp a)
    {vs ws : List (BlockId × Nat)} (hvs : a.Completes vs) (hws : b.Completes ws) :
    (a.indices vs).Sublist (b.indices ws) := by
  have hi : i < p.insts.size :=
    Program.lt_of_isCall (Program.isCall_of_libraryCall (eq_of_beq hspawn))
  have hj : j < p.insts.size :=
    Program.lt_of_isCall (Program.isCall_of_libraryCall (eq_of_beq hjoin))
  have hnot : p.isSpawn j = false := by
    rw [Program.isSpawn, eq_of_beq hjoin]
    rfl
  obtain ⟨hl, hsite, y, hedge, -⟩ := a.body_spec hp hs ht hi
  obtain ⟨hm, hsite', y', hedge', hlatches⟩ := b.body_spec hp hs hu hj
  obtain ⟨htrip, hindex⟩ := JoinMatch.loopExit?_spec hexit a b
  have hgoes : a.GoesOn = b.GoesOn := funext fun k => propext (hkeeps.goesOn_iff htrip k)
  have hat := Induction.at?_eq_of_sameStartAndStep a.index_const b.index_const hindex
  obtain rfl := (Subject.prepared hs).program
  obtain rfl := (gathered ht).site
  obtain rfl := (gathered hu).site
  rw [hfunc] at hm hlatches
  have hsub := Loop.Completes.iterations_sublist hp hl hm (fun h => h.1) (fun h => h.1)
    (a.tested hp hs ht hi) (hgoes ▸ b.tested hp hs hu hj) (Loop.mem_exitEdges_iff.1 hedge).1
    hkeeps.every hkeeps.once hsite' (hlatches hnot) hkeeps.placed hvs hws
  rw [indices, indices, hat]
  exact (hsub.reverse).map _

/-- Two loops over an array of thread ids, each left at its header: the first starts a thread in one
of its blocks and the second waits for a thread behind its test. -/
def twoLoops (site : BlockId) : List Command :=
  [.global "t" 4, .declare "main" 0, .declare "worker" 1, .declare "thread_create" 3,
    .declare "thread_join" 2, .const 0, .const 1,
    .body 1, .append 1 0 (.ret none),
    .body 0, .block 0, .block 0, .block 0, .block 0, .block 0, .block 0, .append 0 1 (.jump 2),
    .append 0 2 (.phi []), .append 0 site (.project 0 none (some 13)),
    .append 0 site (.call (.direct 2) [14, 2, 11]), .append 0 2 (.compare .slt 13 12),
    .append 0 2 (.branch 16 3 4), .append 0 3 (.arith .add 13 12), .append 0 3 (.jump 2),
    .incoming 13 11 1, .incoming 13 17 3, .append 0 4 (.jump 5),
    .append 0 5 (.phi []), .append 0 5 (.compare .slt 18 12), .append 0 5 (.branch 19 6 7),
    .append 0 6 (.project 0 none (some 18)), .append 0 6 (.load 20),
    .append 0 6 (.call (.direct 3) [21, 11]), .append 0 6 (.arith .add 18 12),
    .append 0 6 (.jump 5), .incoming 18 11 4, .incoming 18 23 6, .append 0 7 (.ret none)]

/-- With the spawn behind the test of its loop, the join loop keeps up. -/
theorem indices_sublist_twoLoops : ∃ s t u,
    Subject.prepare (Builder.ofScript (twoLoops 3)) {} = .ok s ∧
    ThreadSite.of s 4 = .ok t ∧ ThreadSite.of s 15 = .ok u ∧
    JoinMatch.loopExit? s t u = .ok (some 7) ∧ ∃ (a : CountingLoop s t) (b : CountingLoop s u),
      b.KeepsUp a ∧ a.Completes [(2, 1), (3, 0), (2, 0)] ∧ b.Completes [(5, 1), (6, 0), (5, 0)] ∧
      (a.indices [(2, 1), (3, 0), (2, 0)]).Sublist (b.indices [(5, 1), (6, 0), (5, 0)]) := by
  have hfin : (Builder.ofScript (twoLoops 3)).Finished :=
    Builder.finished_ofScript (by decide +kernel)
  have hrun : (Subject.prepare (Builder.ofScript (twoLoops 3)) {}).toOption.any (fun s =>
      (ThreadSite.of s 4).toOption.any fun t => (ThreadSite.of s 15).toOption.any fun u =>
        (find? s t).any fun a => (find? s u).any fun b =>
          JoinMatch.loopExit? s t u = .ok (some 7) ∧
          a.trip.cond.pred = b.trip.cond.pred ∧
          (∀ l ∈ s.program.blockOf t.site :: a.body.latches,
            (Dominance.dominators s.program (s.program.funcOf t.site)).dominates a.exiting l) ∧
          s.program.blockOf t.site ∉ a.body.ahead s.program (s.program.blockOf t.site) ∧
          a.exiting ≠ s.program.blockOf t.site ∧
          a.Completes [(2, 1), (3, 0), (2, 0)] ∧ b.Completes [(5, 1), (6, 0), (5, 0)]) = true := by
    decide +kernel
  obtain ⟨s, hs, hrun⟩ := exists_of_any_toOption hrun
  obtain ⟨t, ht, hrun⟩ := exists_of_any_toOption hrun
  obtain ⟨u, hu, hrun⟩ := exists_of_any_toOption hrun
  obtain ⟨a, -, hrun⟩ := (Option.any_eq_true _ _).1 hrun
  obtain ⟨b, -, hrun⟩ := (Option.any_eq_true _ _).1 hrun
  obtain ⟨hexit, hpred, hdom, honce, hne, hvs, hws⟩ := of_decide_eq_true hrun
  have hprog := (Subject.prepared hs).program
  have hfin' : s.program.Finished := hprog ▸ hfin
  have hkeeps : b.KeepsUp a := by
    refine ⟨fun _ _ => by rw [hpred], fun l hl => ?_, honce, .inl ⟨hne, ?_⟩⟩
    · exact hfin'.dominates_iff.1 (hdom l (List.mem_cons_of_mem _ hl))
    · exact hfin'.dominates_iff.1 (hdom _ List.mem_cons_self)
  exact ⟨s, t, u, hs, ht, hu, hexit, a, b, hkeeps, hvs, hws,
    indices_sublist hfin hs (by decide +kernel) (by decide +kernel) (by decide +kernel) ht hu hexit
      a b hkeeps hvs hws⟩

/-- A matched join loop may wait for fewer threads than the spawn loop starts. -/
theorem not_forall_indices_sublist : ¬∀ (p : Program) (c : Config) (s : Subject) (i j : InstId)
    (t u : ThreadSite) (x : BlockId), p.Finished → Subject.prepare p c = .ok s →
    i ∈ (Operations.collect s).spawns → j ∈ (Operations.collect s).joins → p.funcOf j = p.funcOf i →
    ThreadSite.of s i = .ok t → ThreadSite.of s j = .ok u → t.loop ≠ u.loop →
    JoinMatch.loopExit? s t u = .ok (some x) → ∀ (a : CountingLoop s t) (b : CountingLoop s u)
      (vs ws : List (BlockId × Nat)), a.Completes vs → b.Completes ws →
      (a.indices vs).Sublist (b.indices ws) := by
  intro hall
  have hfin : (Builder.ofScript (twoLoops 2)).Finished :=
    Builder.finished_ofScript (by decide +kernel)
  have hrun : (Subject.prepare (Builder.ofScript (twoLoops 2)) {}).toOption.any (fun s =>
      (4 ∈ (Operations.collect s).spawns ∧ 15 ∈ (Operations.collect s).joins) ∧
      (ThreadSite.of s 4).toOption.any fun t => (ThreadSite.of s 15).toOption.any fun u =>
        (find? s t).any fun a => (find? s u).any fun b =>
          t.loop ≠ u.loop ∧ JoinMatch.loopExit? s t u = .ok (some 7) ∧
          a.Completes [(2, 1), (3, 0), (2, 0)] ∧ b.Completes [(5, 1), (6, 0), (5, 0)] ∧
          ¬(a.indices [(2, 1), (3, 0), (2, 0)]).Sublist
            (b.indices [(5, 1), (6, 0), (5, 0)])) = true := by
    decide +kernel
  obtain ⟨s, hs, hrun⟩ := exists_of_any_toOption hrun
  obtain ⟨⟨hspawn, hjoin⟩, hrun⟩ := of_decide_eq_true hrun
  obtain ⟨t, ht, hrun⟩ := exists_of_any_toOption hrun
  obtain ⟨u, hu, hrun⟩ := exists_of_any_toOption hrun
  obtain ⟨a, -, hrun⟩ := (Option.any_eq_true _ _).1 hrun
  obtain ⟨b, -, hrun⟩ := (Option.any_eq_true _ _).1 hrun
  obtain ⟨hloop, hexit, hvs, hws, hnot⟩ := of_decide_eq_true hrun
  exact hnot (hall _ {} s 4 15 t u 7 hfin hs hspawn hjoin (by decide +kernel) ht hu hloop hexit
    a b _ _ hvs hws)

end ThreadSite.CountingLoop

end DataRace
