import DataRace.HeapInstance
import DataRace.Parallel.Site
import DataRace.Proofs.Flow.InductionRange
import DataRace.Proofs.Flow.Loop
import DataRace.Proofs.Program.Age
import DataRace.Proofs.Program.Script

/-!
# DataRace.Proofs.Flow.Chase

Walks back from a value come to an end.

The walks of the library follow an operand only while it is older.  A `Chase`
does not look at ages: it follows every operand it meets, through casts,
projections, loads and arithmetic.  Fuel bounds its rounds and how deep its
calls are nested; where the fuel is used up there is no result, and where no
fuel is enough the chase goes on forever (`Chase.forall_follow_eq_none_iff`).
Only a phi can close a cycle, and no chase goes through one.

* `Chase.casts_eq`, `Chase.base_eq`: the chases of a pointer;
* `Chase.recurrence_eq`, `Chase.sameBound_eq`: those of the induction analysis;
* `Chase.offset_eq`, `Chase.isMadeOf_eq`: those of the thread ids and of the
  heap instances;
* `Session.walks_end`: in a program whose instructions read values created
  before, all of them end, with the results of the walks that look at ages.
-/

namespace DataRace

namespace Chase

/-! ## walks without an end -/

/-- Follow `next` from `v` as long as it leads anywhere. -/
def follow (next : ValueId → Option ValueId) : Nat → ValueId → Option ValueId
  | 0, _ => none
  | fuel + 1, v =>
    match next v with
    | some u => follow next fuel u
    | none => some v

section

variable {next : ValueId → Option ValueId} {v : ValueId}

theorem exists_next_of_forall_follow_eq_none (h : ∀ fuel, follow next fuel v = none) :
    ∃ u, next v = some u ∧ ∀ fuel, follow next fuel u = none := by
  cases hnext : next v with
  | none =>
    have hone := h 1
    rw [follow, hnext] at hone
    cases hone
  | some u =>
    refine ⟨u, rfl, fun fuel => ?_⟩
    have hmore := h (fuel + 1)
    rwa [follow, hnext] at hmore

/-- No fuel is enough exactly where the chase goes on forever. -/
theorem forall_follow_eq_none_iff : (∀ fuel, follow next fuel v = none) ↔
    ∃ path : Nat → ValueId, path 0 = v ∧ ∀ k, next (path k) = some (path (k + 1)) := by
  constructor
  · intro h
    let path (k : Nat) : ValueId := k.rec v fun _ u => (next u).getD u
    have hpath (k : Nat) (fuel : Nat) : follow next fuel (path k) = none := by
      induction k generalizing fuel with
      | zero => exact h fuel
      | succ k ih =>
        obtain ⟨u, hu, hnone⟩ := exists_next_of_forall_follow_eq_none ih
        have hsucc : path (k + 1) = u := by
          change (next (path k)).getD (path k) = u
          rw [hu, Option.getD_some]
        exact hsucc ▸ hnone fuel
    refine ⟨path, rfl, fun k => ?_⟩
    obtain ⟨u, hu, -⟩ := exists_next_of_forall_follow_eq_none (hpath k)
    change next (path k) = some ((next (path k)).getD (path k))
    rw [hu, Option.getD_some]
  · rintro ⟨path, rfl, hpath⟩ fuel
    induction fuel generalizing path with
    | zero => rfl
    | succ fuel ih =>
      rw [follow, hpath 0]
      exact ih (fun k => path (k + 1)) fun k => hpath (k + 1)

/-- Where every step leads to an older value, the chase ends. -/
theorem follow_eq (h : ∀ {v u : Nat}, next v = some u → u < v) {fuel v : Nat} (hv : v < fuel) :
    follow next fuel v = some (Program.followOlder next v) := by
  induction fuel generalizing v with
  | zero => exact absurd hv (Nat.not_lt_zero v)
  | succ fuel ih =>
    rw [follow, Program.followOlder]
    cases hu : next v with
    | none => rfl
    | some u =>
      have hlt := h hu
      dsimp only
      rw [if_pos hlt]
      exact ih (Nat.lt_of_lt_of_le hlt (Nat.le_of_lt_succ hv))

end

/-! ## the chases -/

/-- A chase that ends; its result may be the error that a constant left 64 bits. -/
def ended {α : Type} (x : Except Error α) : ExceptT Error Option α := ExceptT.mk (some x)

/-- The value under every cast around `v`. -/
def casts (p : Program) (fuel : Nat) (v : ValueId) : Option ValueId := follow p.castSource? fuel v

/-- The value under every cast and field projection around `v`. -/
def base (p : Program) (fuel : Nat) (v : ValueId) : Option ValueId := follow p.pointerSource? fuel v

/-- A value as a term, casts aside. -/
def term (p : Program) (fuel : Nat) (v : ValueId) : Option Term := do
  let w ← casts p fuel v
  return (p.constValue w).elim (.value w) .const

/-- What a phi grows by from one iteration to the next. -/
def stepOf (p : Program) (fuel : Nat) (phi next : ValueId) : Option (Option (ValueId ⊕ Int64)) := do
  match p.defOp (← casts p fuel next) with
  | some (.arith .add l r) =>
    if (← casts p fuel l) = phi then return some (.inl r)
    else if (← casts p fuel r) = phi then return some (.inl l)
    else return none
  | some (.arith .sub l r) =>
    if (← casts p fuel l) = phi then return (p.constValue r).map .inr else return none
  | _ => return none

/-- The recurrence of a header phi with one input from inside the loop and one from outside. -/
def phiRecurrence (p : Program) (loops : Loops) (fuel : Nat) (i : InstId) :
    ExceptT Error Option (Option Recurrence) := do
  let inst := p.inst i
  match inst.op, (loops.loopOf inst.block).map loops.get, inst.result with
  | .phi incoming, some l, some phi =>
    if l.header ≠ inst.block ∨ incoming.length ≠ 2 then
      return none
    else
      match Induction.splitInputs l incoming with
      | (some start, some next) =>
        match ← stepOf p fuel phi next with
        | some (.inl step) => return some ⟨l.header, ← term p fuel start, ← term p fuel step⟩
        | some (.inr c) =>
          return some ⟨l.header, ← term p fuel start, .const (← ended (Induction.word (-c.toInt)))⟩
        | none => return none
      | _ => return none
  | _, _, _ => return none

/-- The recurrence of a value, if it is an affine function of an induction variable. -/
def recurrence (p : Program) (loops : Loops) :
    Nat → ValueId → ExceptT Error Option (Option Recurrence)
  | 0, _ => ExceptT.mk none
  | fuel + 1, v => do
    match p.defInst (← casts p (fuel + 1) v) with
    | none => return none
    | some i =>
      match p.op i with
      | .phi _ => phiRecurrence p loops (fuel + 1) i
      | .arith op l r =>
        match ← recurrence p loops fuel l, p.constValue r with
        | some rec, some c => ended (Induction.scaled op rec c)
        | _, _ =>
          match ← recurrence p loops fuel r, p.constValue l with
          | some rec, some c => if op = .sub then return none else ended (Induction.scaled op rec c)
          | _, _ => return none
      | _ => return none

/-- Whether two values are computed in the same way. -/
def sameBound (p : Program) : Nat → ValueId → ValueId → Option Bool
  | 0, _, _ => none
  | fuel + 1, a, b => do
    let x ← casts p (fuel + 1) a
    let y ← casts p (fuel + 1) b
    if x = y then
      return true
    else
      match (p.value x).definition, (p.value y).definition with
      | .const c, .const d => return c == d
      | .inst i, .inst j =>
        let us := (p.op i).operands
        let vs := (p.op j).operands
        if Induction.sameOperation (p.op i) (p.op j) && us.length == vs.length then
          (us.zip vs).allM fun uv => sameBound p fuel uv.1 uv.2
        else
          return false
      | _, _ => return false

/-- The index of the innermost indexed projection a pointer goes through. -/
def index (p : Program) : Nat → ValueId → Option (Option ValueId)
  | 0, _ => none
  | fuel + 1, v =>
    match p.defOp v with
    | some (.project _ _ (some i)) => some (some i)
    | some (.project base _ none) => index p fuel base
    | some (.cast src) => index p fuel src
    | _ => some none

/-- How a pointer into an array of thread ids moves from one iteration to the next. -/
def offset (p : Program) (loops : Loops) (fuel : Nat) (ptr : ValueId) :
    ExceptT Error Option (Option Recurrence) := do
  match ← index p fuel (← casts p fuel ptr) with
  | some i => recurrence p loops fuel i
  | none => return none

/-- Whether a value is made of the result of an instruction by casts and projections only. -/
def isMadeOf (p : Program) (source : InstId) : Nat → ValueId → Option Bool
  | 0, _ => none
  | fuel + 1, v => do
    match p.defInst (← casts p (fuel + 1) v) with
    | none => return false
    | some i =>
      if i = source then
        return true
      else
        match p.op i with
        | .project base _ _ => isMadeOf p source fuel base
        | .cast src => isMadeOf p source fuel src
        | _ => return false

/-! ## sequences of chases -/

theorem ended_bind {α β : Type} (x : Except Error α) (f : α → Except Error β) :
    (ended x >>= fun a => ended (f a)) = ended (x >>= f) := by
  cases x <;> rfl

theorem lift_bind {α β : Type} (a : α) (f : α → ExceptT Error Option β) :
    (liftM (some a) >>= f) = f a := rfl

/-- Tests that all end are made up to the first that fails. -/
theorem allM_eq {α : Type} {f : α → Option Bool} {g : α → Bool} {xs : List α}
    (h : ∀ x ∈ xs, f x = some (g x)) : xs.allM f = some (xs.all g) := by
  induction xs with
  | nil => rfl
  | cons x xs ih =>
    rw [List.allM, h x List.mem_cons_self, ih fun y hy => h y (List.mem_cons_of_mem x hy),
      List.all_cons]
    cases g x <;> rfl

end Chase

/-! ## walks that look at ages -/

namespace Program

variable {p : Program}

theorem defOp_eq {v : ValueId} {i : InstId} (h : p.defInst v = some i) :
    p.defOp v = some (p.op i) := by
  rw [defOp, h, Option.map_some]

theorem castSource?_eq_some {v u : ValueId} (h : p.castSource? v = some u) :
    p.defOp v = some (.cast u) := by
  unfold castSource? at h
  split at h
  · next hop =>
    cases h
    exact hop
  · cases h

/-- What goes through casts tells the same of a value and of what is under its casts. -/
theorem apply_stripCasts {α : Type} {f : ValueId → α}
    (h : ∀ v u, p.castSource? v = some u → u < v → f v = f u) (v : ValueId) :
    f (p.stripCasts v) = f v := by
  rw [stripCasts]
  fun_induction followOlder p.castSource? v with
  | case1 v u hu hlt ih => rw [ih, h v u hu hlt]
  | case2 => rfl
  | case3 => rfl

theorem basePointer_of_pointerSource? {v u : ValueId} (h : p.pointerSource? v = some u)
    (hlt : u < v) :
    p.basePointer v = p.basePointer u := by
  rw [basePointer, followOlder, h]
  exact if_pos hlt

theorem basePointer_stripCasts (v : ValueId) :
    p.basePointer (p.stripCasts v) = p.basePointer v := by
  refine apply_stripCasts (fun v u hu hlt => basePointer_of_pointerSource? ?_ hlt) v
  rw [pointerSource?, castSource?_eq_some hu]

theorem indexOf?_stripCasts (v : ValueId) :
    ThreadSite.indexOf? p (p.stripCasts v) = ThreadSite.indexOf? p v := by
  refine apply_stripCasts (fun v u hu hlt => ?_) v
  rw [ThreadSite.indexOf?, castSource?_eq_some hu]
  exact if_pos hlt

namespace Descends

variable (hp : p.Descends) {v u : Nat}

include hp

theorem castSource?_lt (h : p.castSource? v = some u) : u < v :=
  hp.older (castSource?_eq_some h) rfl List.mem_cons_self

theorem pointerSource?_lt (h : p.pointerSource? v = some u) : u < v := by
  unfold pointerSource? at h
  split at h
  · next hop =>
    cases h
    exact hp.older hop rfl List.mem_cons_self
  · next hop =>
    cases h
    exact hp.older hop rfl List.mem_cons_self
  · cases h

/-- What the operation under the casts of a value reads is older than the value. -/
theorem older_of_stripCasts {op : Operation} (hop : p.defOp (p.stripCasts v) = some op)
    (hphi : op.isPhi = false) (hu : u ∈ op.operands) : u < v :=
  Nat.lt_of_lt_of_le (hp.older hop hphi hu) (Induction.stripCasts_le p v)

theorem index_lt (h : ThreadSite.indexOf? p v = some u) : u < v := by
  induction v using Nat.strong_induction_on with
  | _ v ih =>
    rw [ThreadSite.indexOf?] at h
    split at h
    · next hop =>
      cases h
      exact hp.older hop rfl (List.mem_cons_of_mem _ List.mem_cons_self)
    · next base _ hop =>
      split at h
      · next hlt => exact Nat.lt_trans (ih base hlt h) hlt
      · cases h
    · next src hop =>
      split at h
      · next hlt => exact Nat.lt_trans (ih src hlt h) hlt
      · cases h
    · cases h

end Descends

end Program

namespace Induction

theorem isPhi_of_sameOperation {o o' : Operation} (h : sameOperation o o' = true) :
    o.isPhi = false ∧ o'.isPhi = false := by
  cases o <;> cases o' <;> first | exact ⟨rfl, rfl⟩ | cases h

/-- What a phi grows by is read by the input from inside the loop. -/
theorem lt_of_stepOf {p : Program} (hp : p.Descends) {phi next u : Nat}
    (h : stepOf p phi next = some (.inl u)) : u < next := by
  unfold stepOf at h
  split at h
  · next l r hop =>
    split at h
    · cases h
      exact hp.older_of_stripCasts hop rfl (List.mem_cons_of_mem l List.mem_cons_self)
    · split at h
      · cases h
        exact hp.older_of_stripCasts hop rfl List.mem_cons_self
      · cases h
  · split at h
    · obtain ⟨c, -, hc⟩ := Option.map_eq_some_iff.1 h
      cases hc
    · cases h
  · cases h

end Induction

/-! ## chases that end -/

namespace Chase

variable {p : Program} (hp : p.Descends)

include hp

theorem casts_eq {fuel v : Nat} (hv : v < fuel) : casts p fuel v = some (p.stripCasts v) :=
  follow_eq hp.castSource?_lt hv

theorem base_eq {fuel v : Nat} (hv : v < fuel) : base p fuel v = some (p.basePointer v) :=
  follow_eq hp.pointerSource?_lt hv

theorem term_eq {fuel v : Nat} (hv : v < fuel) :
    term p fuel v = some (Induction.term p v) := by
  rw [term, casts_eq hp hv, Induction.term, Option.bind_eq_bind, Option.bind_some]
  cases p.constValue (p.stripCasts v) <;> rfl

theorem stepOf_eq {fuel phi next : Nat} (hnext : next < fuel) :
    stepOf p fuel phi next = some (Induction.stepOf p phi next) := by
  rw [stepOf, Induction.stepOf, casts_eq hp hnext, Option.bind_eq_bind, Option.bind_some]
  cases hop : p.defOp (p.stripCasts next) with
  | none => rfl
  | some op =>
    cases op with
    | arith op l r =>
      have hlt {u : Nat} (hu : u ∈ (Operation.arith op l r).operands) : u < fuel :=
        Nat.lt_trans (hp.older_of_stripCasts hop rfl hu) hnext
      have hl := casts_eq hp (hlt List.mem_cons_self)
      have hr := casts_eq hp (hlt (List.mem_cons_of_mem l List.mem_cons_self))
      cases op with
      | add =>
        simp only [hl, hr, Option.bind_some]
        split_ifs <;> rfl
      | sub =>
        simp only [hl, Option.bind_some]
        split_ifs <;> rfl
      | mul => rfl
      | other => rfl
    | _ => rfl

/-- The inputs of a phi may be young, but they are in the table. -/
theorem phiRecurrence_eq (loops : Loops) {fuel : Nat} (hfuel : p.values.size ≤ fuel) (i : InstId) :
    phiRecurrence p loops fuel i = ended (Induction.phiRecurrence p loops i) := by
  unfold phiRecurrence Induction.phiRecurrence
  dsimp only
  cases hop : (p.inst i).op with
  | phi incoming =>
    have hlt {u : Nat} (hu : u ∈ incoming.map (·.1)) : u < fuel := by
      refine Nat.lt_of_lt_of_le (hp.operand_lt (i := i) ?_) hfuel
      rwa [Program.op, hop]
    cases (loops.loopOf (p.inst i).block).map loops.get with
    | none => rfl
    | some l =>
      cases (p.inst i).result with
      | none => rfl
      | some phi =>
        dsimp only
        split_ifs
        · rfl
        · cases hsplit : Induction.splitInputs l incoming with
          | mk start next =>
            cases start <;> cases next
            case some.some start next =>
              obtain ⟨hstart, hnext⟩ := Induction.mem_of_splitInputs hsplit
              dsimp only
              rw [stepOf_eq hp (hlt hnext), term_eq hp (hlt hstart), lift_bind]
              cases hstep : Induction.stepOf p phi next with
              | none => rfl
              | some step =>
                cases step with
                | inl u =>
                  have hu := Nat.lt_trans (Induction.lt_of_stepOf hp hstep) (hlt hnext)
                  dsimp only
                  rw [term_eq hp hu]
                  rfl
                | inr c => exact ended_bind (Induction.word (-c.toInt)) _
            all_goals rfl
  | _ => rfl

theorem recurrence_eq (loops : Loops) {fuel v : Nat} (hfuel : p.values.size + v < fuel) :
    recurrence p loops fuel v = ended (Induction.recurrence p loops v) := by
  -- the operands of arithmetic, which the chase goes on from, are older
  induction fuel generalizing v with
  | zero => exact absurd hfuel (Nat.not_lt_zero _)
  | succ fuel ih =>
    rw [recurrence, Induction.recurrence, casts_eq hp (by omega), lift_bind]
    cases hi : p.defInst (p.stripCasts v) with
    | none => rfl
    | some i =>
      dsimp only
      cases hop : p.op i with
      | phi incoming => exact phiRecurrence_eq hp loops (by omega) i
      | arith op l r =>
        have hlt {u : Nat} (hu : u ∈ (Operation.arith op l r).operands) : u < v :=
          hp.older_of_stripCasts ((Program.defOp_eq hi).trans (congrArg some hop)) rfl hu
        have hl := hlt List.mem_cons_self
        have hr := hlt (List.mem_cons_of_mem l List.mem_cons_self)
        dsimp only
        rw [ih (by omega : p.values.size + l < fuel), ih (by omega : p.values.size + r < fuel),
          dif_pos hl, dif_pos hr, ← ended_bind]
        refine congrArg _ (funext fun rl => ?_)
        cases rl <;> cases p.constValue r
        case some.some => rfl
        all_goals
          dsimp only
          rw [← ended_bind]
          refine congrArg _ (funext fun rr => ?_)
          cases rr <;> cases p.constValue l
          case some.some =>
            dsimp only
            split_ifs <;> rfl
          all_goals rfl
      | _ => rfl

theorem sameBound_eq {fuel a b : Nat} (ha : a < fuel) (hb : b < fuel) :
    sameBound p fuel a b = some (Induction.sameBound p a b) := by
  induction fuel generalizing a b with
  | zero => exact absurd ha (Nat.not_lt_zero a)
  | succ fuel ih =>
    rw [sameBound, Induction.sameBound]
    simp only [casts_eq hp ha, casts_eq hp hb, Option.bind_eq_bind, Option.bind_some]
    by_cases hxy : p.stripCasts a = p.stripCasts b
    · rw [if_pos hxy, hxy, beq_self_eq_true, Bool.true_or]
      rfl
    · rw [if_neg hxy, beq_false_of_ne hxy, Bool.false_or]
      cases hx : (p.value (p.stripCasts a)).definition with
      | const c => cases (p.value (p.stripCasts b)).definition <;> rfl
      | inst i =>
        cases hy : (p.value (p.stripCasts b)).definition with
        | inst j =>
          dsimp only
          cases hop : Induction.sameOperation (p.op i) (p.op j) with
          | false => rfl
          | true =>
            cases (p.op i).operands.length == (p.op j).operands.length with
            | false => rfl
            | true =>
              obtain ⟨hphi, hphi'⟩ := Induction.isPhi_of_sameOperation hop
              rw [Bool.true_and, Bool.true_and, if_pos rfl]
              refine allM_eq fun uv huv => ?_
              obtain ⟨hu, hv⟩ := List.of_mem_zip huv
              have hlt := hp.older_of_stripCasts
                (Program.defOp_eq (by rw [Program.defInst, hx])) hphi hu
              have hlt' := hp.older_of_stripCasts
                (Program.defOp_eq (by rw [Program.defInst, hy])) hphi' hv
              rw [dif_pos hlt]
              exact ih (by omega) (by omega)
        | _ => rfl
      | _ => rfl

theorem index_eq {fuel v : Nat} (hv : v < fuel) :
    index p fuel v = some (ThreadSite.indexOf? p v) := by
  induction fuel generalizing v with
  | zero => exact absurd hv (Nat.not_lt_zero v)
  | succ fuel ih =>
    rw [index, ThreadSite.indexOf?]
    cases hop : p.defOp v with
    | none => rfl
    | some op =>
      cases op with
      | project base field index =>
        cases index with
        | some index => rfl
        | none =>
          have hlt := hp.older hop rfl List.mem_cons_self
          simp only [if_pos hlt]
          exact ih (by omega)
      | cast src =>
        have hlt := hp.older hop rfl List.mem_cons_self
        simp only [if_pos hlt]
        exact ih (by omega)
      | _ => rfl

theorem offset_eq (loops : Loops) {fuel ptr : Nat} (hfuel : p.values.size + ptr < fuel) :
    offset p loops fuel ptr =
      ended ((ThreadSite.indexOf? p ptr).elim (.ok none) (Induction.recurrence p loops)) := by
  have hstrip := Nat.lt_of_le_of_lt (Induction.stripCasts_le p ptr) (by omega : ptr < fuel)
  rw [offset, casts_eq hp (by omega), lift_bind, index_eq hp hstrip, lift_bind,
    Program.indexOf?_stripCasts]
  cases hi : ThreadSite.indexOf? p ptr with
  | none => rfl
  | some i =>
    have hlt := hp.index_lt hi
    exact recurrence_eq hp loops (by omega)

/-- The chase ends for any source.  For an allocation it tells whether the walk through casts and
projections ends there. -/
theorem isMadeOf_eq (source : InstId) {fuel v : Nat} (hv : v < fuel) :
    ∃ made, isMadeOf p source fuel v = some made ∧
      ∀ heap fields, p.op source = .alloc heap fields → made = HeapFlow.isMadeOf p source v := by
  induction fuel generalizing v with
  | zero => exact absurd hv (Nat.not_lt_zero v)
  | succ fuel ih =>
    rw [isMadeOf, casts_eq hp hv, Option.bind_eq_bind, Option.bind_some, HeapFlow.isMadeOf,
      ← Program.basePointer_stripCasts]
    have hstay (hnone : p.pointerSource? (p.stripCasts v) = none) :
        p.basePointer (p.stripCasts v) = p.stripCasts v := by
      rw [Program.basePointer, Program.followOlder, hnone]
    have hgo {u : Nat} (hu : p.pointerSource? (p.stripCasts v) = some u) :
        ∃ made, isMadeOf p source fuel u = some made ∧
          ∀ heap fields, p.op source = .alloc heap fields →
            made = (p.defInst (p.basePointer (p.stripCasts v)) == some source) := by
      have hlt := hp.pointerSource?_lt hu
      have hle := Nat.lt_of_lt_of_le hlt (Induction.stripCasts_le p v)
      rw [Program.basePointer_of_pointerSource? hu hlt]
      exact ih (by omega)
    cases hi : p.defInst (p.stripCasts v) with
    | none =>
      have hnone : p.pointerSource? (p.stripCasts v) = none := by
        rw [Program.pointerSource?, Program.defOp, hi]
        rfl
      refine ⟨false, rfl, fun _ _ _ => ?_⟩
      rw [hstay hnone, hi]
      rfl
    | some i =>
      have hdef := Program.defOp_eq hi
      dsimp only
      split_ifs with heq
      · refine ⟨true, rfl, fun _ _ halloc => ?_⟩
        rw [hstay (by rw [Program.pointerSource?, hdef, heq, halloc]), hi, heq, beq_self_eq_true]
      · cases hop : p.op i with
        | project base field index => exact hgo (by rw [Program.pointerSource?, hdef, hop])
        | cast src => exact hgo (by rw [Program.pointerSource?, hdef, hop])
        | _ =>
          refine ⟨false, rfl, fun _ _ _ => ?_⟩
          rw [hstay (by rw [Program.pointerSource?, hdef, hop]), hi]
          exact (beq_false_of_ne fun h => heq (Option.some.inj h)).symm

end Chase

namespace Session

open Chase

/-- **Value walks end.**  In a program built by calls whose instructions read values created before,
phis apart, every chase ends, from every value, with the result of the walk that looks at ages.  One
round for each value at least as old is enough, and one more for each value in the table where the
chase looks at the inputs of a phi. -/
theorem walks_end {calls : List Call} {p : Program} (h : build calls = .ok p)
    (hcalls : ∀ s c, MadeIn calls {} s c → c.ReadsOlder s) (loops : Loops) :
    (∀ fuel v, v < fuel → casts p fuel v = some (p.stripCasts v)) ∧
    (∀ fuel v, v < fuel → base p fuel v = some (p.basePointer v)) ∧
    (∀ fuel v, p.values.size + v < fuel →
      (recurrence p loops fuel v).run = some (Induction.recurrence p loops v)) ∧
    (∀ fuel a b, a < fuel → b < fuel → sameBound p fuel a b = some (Induction.sameBound p a b)) ∧
    (∀ fuel ptr, p.values.size + ptr < fuel → (offset p loops fuel ptr).run =
      some ((ThreadSite.indexOf? p ptr).elim (.ok none) (Induction.recurrence p loops))) ∧
    ∀ fuel source v, v < fuel → ∃ made, isMadeOf p source fuel v = some made ∧
      ∀ heap fields, p.op source = .alloc heap fields → made = HeapFlow.isMadeOf p source v := by
  have hp := descends_of_build h hcalls
  refine ⟨fun _ _ => casts_eq hp, fun _ _ => base_eq hp, fun _ _ => recurrence_eq hp loops,
    fun _ _ _ => sameBound_eq hp, fun _ _ => offset_eq hp loops,
    fun _ source _ => isMadeOf_eq hp source⟩

/-- A loop whose phi goes on from a cast of itself, and a block out of reach whose phi has nothing
but a cast of a projection of itself. -/
def spinning : List Call :=
  [.declare "main" 0, .const 0, .const 1, .const 4, .body 0, .newBlock, .newBlock, .newBlock,
    .append (.alloc true 4), .append (.jump 1),
    .positionAt 1, .append (.phi [(1, 0)]), .append (.cast 5), .append (.arith .add 6 2),
    .append (.arith .add 5 2), .append (.cast 7), .append (.project 4 none (some 6)),
    .append (.cast 10), .append (.compare .slt 5 3), .append (.branch 12 1 2),
    .addIncoming 5 9 1,
    .positionAt 2, .append (.ret none),
    .positionAt 3, .append (.phi []), .append (.project 13 (some 1) none), .append (.cast 14),
    .append (.jump 3), .addIncoming 13 15 3]

theorem walks_end_spinning : ∃ p, build spinning = .ok p ∧
    (∀ s c, MadeIn spinning {} s c → c.ReadsOlder s) ∧ p.op 2 = .phi [(1, 0), (9, 1)] ∧
    p.op 12 = .phi [(15, 3)] ∧ casts p 16 15 = some 14 ∧ base p 16 15 = some 13 ∧
    (recurrence p (p.loops 0) 26 9).run = some (.ok (some ⟨1, .const 1, .const 1⟩)) ∧
    sameBound p 10 9 8 = some true ∧
    (offset p (p.loops 0) 28 11).run = some (.ok (some ⟨1, .const 0, .const 1⟩)) ∧
    isMadeOf p 0 12 11 = some true := by
  obtain ⟨p, h, hp⟩ := exists_of_any_toOption (x := build spinning)
    (P := fun p => decide (p.values.size = 16 ∧ p.op 2 = .phi [(1, 0), (9, 1)] ∧
      p.op 12 = .phi [(15, 3)] ∧ p.op 0 = .alloc true 4 ∧ p.stripCasts 15 = 14 ∧
      p.basePointer 15 = 13 ∧
      Induction.recurrence p (p.loops 0) 9 = .ok (some ⟨1, .const 1, .const 1⟩) ∧
      Induction.sameBound p 9 8 = true ∧ ThreadSite.indexOf? p 11 = some 6 ∧
      Induction.recurrence p (p.loops 0) 6 = .ok (some ⟨1, .const 0, .const 1⟩) ∧
      HeapFlow.isMadeOf p 0 11 = true)) (by decide +kernel)
  simp only [decide_eq_true_eq] at hp
  obtain ⟨hsize, hcycle, hlost, halloc, hcasts, hbase, hrec, hsame, hindex, hoffset, hheap⟩ := hp
  have hcalls : ∀ s c, MadeIn spinning {} s c → c.ReadsOlder s := fun _ _ =>
    readsOlder_of_readOlder (by decide +kernel)
  obtain ⟨hcasts', hbase', hrec', hsame', hoffset', hheap'⟩ := walks_end h hcalls (p.loops 0)
  obtain ⟨made, hmade, heq⟩ := hheap' 12 0 11 (by decide)
  refine ⟨p, h, hcalls, hcycle, hlost, ?_, ?_, ?_, ?_, ?_, ?_⟩
  · rw [hcasts' 16 15 (by decide), hcasts]
  · rw [hbase' 16 15 (by decide), hbase]
  · rw [hrec' 26 9 (by rw [hsize]; decide), hrec]
  · rw [hsame' 10 9 8 (by decide) (by decide), hsame]
  · rw [hoffset' 28 11 (by rw [hsize]; decide), hindex, Option.elim_some, hoffset]
  · rw [hmade, heq true 4 halloc, hheap]

/-- An instruction that reads its own result. -/
def circling : List Call :=
  [.declare "main" 0, .body 0, .append (.cast 1), .append (.ret none)]

/-- A program may be built in which a chase does not end. -/
theorem casts_circling : ∃ p, build circling = .ok p ∧ ∀ fuel, casts p fuel 1 = none := by
  obtain ⟨p, h, hp⟩ := exists_of_any_toOption (x := build circling)
    (P := fun p => decide (p.castSource? 1 = some 1)) (by decide +kernel)
  rw [decide_eq_true_eq] at hp
  exact ⟨p, h, forall_follow_eq_none_iff.2 ⟨fun _ => 1, rfl, fun _ => hp⟩⟩

end Session

end DataRace
