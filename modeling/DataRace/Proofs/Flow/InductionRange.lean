import DataRace.Flow.Induction
import DataRace.Proofs.Program.Finished
import DataRace.Proofs.Success
import Mathlib.Data.List.MinMax

/-!
# DataRace.Proofs.Flow.InductionRange

How large the constants of a recurrence get.

A recurrence starts from constants of the program, and every operation with a
constant makes its start and step larger.  `Induction.magnitude` bounds both by
the constants that go into them; as long as it fits into a 64-bit word no
arithmetic of the induction oracle leaves the word:

* `Induction.succeeds_recurrence` — finding a recurrence succeeds, and the
  recurrence is within the magnitude of its value;
* `Induction.succeeds_exitCondition`, `Induction.succeeds_tripCount` — so does
  finding what a loop counts.
-/

namespace DataRace

/-- The absolute value of a constant. -/
def Term.size : Term → Nat
  | .const c => c.toInt.natAbs
  | .value _ => 0

/-- The start and the step of a recurrence are no larger than a bound. -/
structure Recurrence.Within (r : Recurrence) (n : Nat) : Prop where
  start : r.start.size ≤ n
  step : r.step.size ≤ n

theorem Recurrence.Within.mono {r : Recurrence} {m n : Nat} (h : r.Within m) (hmn : m ≤ n) :
    r.Within n :=
  ⟨Nat.le_trans h.start hmn, Nat.le_trans h.step hmn⟩

/-- How large the result of an operation on two numbers up to some size may be. -/
def Arith.growth (op : Arith) (m n : Nat) : Nat :=
  match op with
  | .add | .sub => m + n
  | .mul => m * n
  | .other => 0

namespace Induction

/-- The largest constant that an input of a phi brings in: as the start, or as the step that the
operation behind it adds or takes away. -/
def inputSize (p : Program) (v : ValueId) : Nat :=
  max (term p v).size <|
    match p.defOp (p.stripCasts v) with
    | some (.arith _ l r) => max (term p l).size (term p r).size
    | _ => 0

/-- A bound on the start and step of the recurrence of a value, from the constants it is made of. -/
def magnitude (p : Program) (v : ValueId) : Nat :=
  match p.defOp (p.stripCasts v) with
  | some (.phi incoming) => (incoming.map fun x => inputSize p x.1).foldr max 0
  | some (.arith op l r) =>
    max ((p.constValue r).elim 0 fun c =>
          op.growth (if _h : l < v then magnitude p l else 0) c.toInt.natAbs)
        ((p.constValue l).elim 0 fun c =>
          op.growth (if _h : r < v then magnitude p r else 0) c.toInt.natAbs)
  | _ => 0
termination_by v

end Induction

/-- The magnitudes of the values of a program fit into a 64-bit word with a sign. -/
def Program.RecurrencesFit (p : Program) : Prop :=
  ∀ v < p.values.size, (Induction.magnitude p v : Int) ≤ Int64.maxValue.toInt

instance (p : Program) : Decidable p.RecurrencesFit :=
  inferInstanceAs (Decidable (∀ v < p.values.size,
    (Induction.magnitude p v : Int) ≤ Int64.maxValue.toInt))

namespace Induction

variable {p : Program} {loops : Loops} {v : ValueId}

/-- The recurrences that may come out of a computation are within a bound. -/
def Bounded (n : Nat) (o : Option Recurrence) : Prop := ∀ r ∈ o, r.Within n

theorem bounded_none (n : Nat) : Bounded n none := nofun

/-! ## words -/

theorem succeeds_word {m : Int} {n : Nat} (hm : m.natAbs ≤ n) (hn : n ≤ Int64.maxValue.toInt) :
    Succeeds (fun w => (Term.const w).size ≤ n) (word m) := by
  have hmin : Int64.minValue.toInt = -9223372036854775808 := rfl
  have hmax : Int64.maxValue.toInt = 9223372036854775807 := rfl
  have hin : Int64.minValue.toInt ≤ m ∧ m ≤ Int64.maxValue.toInt := by omega
  rw [word, if_pos hin]
  refine .ok ?_
  rwa [Term.size, Int64.toInt_ofInt_of_le (by omega) (by omega)]

/-- An operation with a constant succeeds if its growth fits. -/
theorem succeeds_scaled {op : Arith} {r : Recurrence} {c : Int64} {n : Nat} (hr : r.Within n)
    (hfit : op.growth n c.toInt.natAbs ≤ Int64.maxValue.toInt) :
    Succeeds (Bounded (op.growth n c.toInt.natAbs)) (scaled op r c) := by
  obtain ⟨header, start, step⟩ := r
  obtain ⟨hstart, hstep⟩ := hr
  cases start with
  | value v => cases op <;> exact .ok (bounded_none _)
  | const s =>
    cases op with
    | add =>
      have hsum : (s.toInt + c.toInt).natAbs ≤ n + c.toInt.natAbs :=
        Nat.le_trans (Int.natAbs_add_le ..) (Nat.add_le_add_right hstart _)
      refine (succeeds_word hsum hfit).bind fun w hw => .ok ?_
      rintro _ ⟨⟩
      exact ⟨hw, Nat.le_add_right_of_le hstep⟩
    | sub =>
      have hdiff : (s.toInt - c.toInt).natAbs ≤ n + c.toInt.natAbs :=
        Nat.le_trans (Int.natAbs_sub_le ..) (Nat.add_le_add_right hstart _)
      refine (succeeds_word hdiff hfit).bind fun w hw => .ok ?_
      rintro _ ⟨⟩
      exact ⟨hw, Nat.le_add_right_of_le hstep⟩
    | mul =>
      cases step with
      | value v => exact .ok (bounded_none _)
      | const t =>
        have hproduct {a : Int64} (ha : a.toInt.natAbs ≤ n) :
            (a.toInt * c.toInt).natAbs ≤ n * c.toInt.natAbs := by
          rw [Int.natAbs_mul]
          exact Nat.mul_le_mul_right _ ha
        refine (succeeds_word (hproduct hstart) hfit).bind fun w hw => ?_
        refine (succeeds_word (hproduct hstep) hfit).bind fun u hu => .ok ?_
        rintro _ ⟨⟩
        exact ⟨hw, hu⟩
    | other => exact .ok (bounded_none _)

/-! ## header phis -/

/-- A constant stands for itself. -/
theorem term_of_constValue {c : Int64} (h : p.constValue v = some c) : term p v = .const c := by
  have hnone : p.castSource? v = none := by
    unfold Program.constValue at h
    split at h
    · next hdef =>
      simp only [Program.castSource?, Program.defOp, Program.defInst, hdef, Option.map_none]
    · cases h
  have hstrip : p.stripCasts v = v := by rw [Program.stripCasts, Program.followOlder, hnone]
  simp only [term, hstrip, h]

/-- The chosen inputs of a phi are among its inputs. -/
theorem mem_of_splitInputs {l : Loop} {incoming : List (ValueId × BlockId)} {start next : ValueId}
    (h : splitInputs l incoming = (some start, some next)) :
    start ∈ incoming.map (·.1) ∧ next ∈ incoming.map (·.1) := by
  have hall : (∀ u ∈ (splitInputs l incoming).1, u ∈ incoming.map (·.1)) ∧
      ∀ u ∈ (splitInputs l incoming).2, u ∈ incoming.map (·.1) := by
    unfold splitInputs
    refine List.foldlRecOn
      (motive := fun chosen : Option ValueId × Option ValueId =>
        (∀ u ∈ chosen.1, u ∈ incoming.map (·.1)) ∧ ∀ u ∈ chosen.2, u ∈ incoming.map (·.1))
      incoming _ ?_ ?_
    · exact ⟨nofun, nofun⟩
    · rintro ⟨s, n⟩ ⟨hs, hn⟩ ⟨u, b⟩ hu
      have hmem : u ∈ incoming.map (·.1) := List.mem_map_of_mem hu
      dsimp only
      split
      · exact ⟨hs, fun w hw => Option.some.inj hw ▸ hmem⟩
      · exact ⟨fun w hw => Option.some.inj hw ▸ hmem, hn⟩
  rw [h] at hall
  exact ⟨hall.1 _ rfl, hall.2 _ rfl⟩

theorem inputSize_le {incoming : List (ValueId × BlockId)} {u : ValueId}
    (hop : p.defOp (p.stripCasts v) = some (.phi incoming)) (hu : u ∈ incoming.map (·.1)) :
    inputSize p u ≤ magnitude p v := by
  obtain ⟨x, hx, rfl⟩ := List.mem_map.1 hu
  rw [magnitude, hop]
  exact List.le_max_of_le' 0 (List.mem_map_of_mem hx) (Nat.le_refl _)

/-- What a phi grows by is an operand of the operation behind its input. -/
theorem size_stepOf_le {phi next : ValueId} {step : ValueId ⊕ Int64}
    (h : stepOf p phi next = some step) :
    step.elim (fun u => (term p u).size) (·.toInt.natAbs) ≤ inputSize p next := by
  have hmax {l r : ValueId} {op : Arith}
      (hop : p.defOp (p.stripCasts next) = some (.arith op l r)) :
      (term p l).size ≤ inputSize p next ∧ (term p r).size ≤ inputSize p next := by
    rw [inputSize, hop]
    dsimp only
    omega
  unfold stepOf at h
  split at h
  · next l r hop =>
    split at h
    · cases h
      exact (hmax hop).2
    · split at h
      · cases h
        exact (hmax hop).1
      · cases h
  · next l r hop =>
    split at h
    · obtain ⟨c, hc, rfl⟩ := Option.map_eq_some_iff.1 h
      have hle := (hmax hop).2
      rwa [term_of_constValue hc] at hle
    · cases h
  · cases h

/-- Finding the recurrence of a phi succeeds if its inputs fit, and the inputs bound it. -/
theorem succeeds_phiRecurrence {i : InstId} {n : Nat} (hn : n ≤ Int64.maxValue.toInt)
    (hle : ∀ incoming, p.op i = .phi incoming → ∀ u ∈ incoming.map (·.1), inputSize p u ≤ n) :
    Succeeds (Bounded n) (phiRecurrence p loops i) := by
  unfold phiRecurrence
  dsimp only
  split
  · next incoming l phi hop hl hphi =>
    split
    · exact .ok (bounded_none _)
    · split
      · next start nxt hsplit =>
        obtain ⟨hstart, hnext⟩ := mem_of_splitInputs hsplit
        have hstart : (term p start).size ≤ n :=
          Nat.le_trans (Nat.le_max_left ..) (hle incoming hop start hstart)
        split
        · next u hstep =>
          refine .ok ?_
          rintro _ ⟨⟩
          exact ⟨hstart, Nat.le_trans (size_stepOf_le hstep) (hle incoming hop nxt hnext)⟩
        · next c hstep =>
          have hneg : (-c.toInt).natAbs ≤ n := by
            rw [Int.natAbs_neg]
            exact Nat.le_trans (size_stepOf_le hstep) (hle incoming hop nxt hnext)
          refine (succeeds_word hneg hn).bind fun w hw => .ok ?_
          rintro _ ⟨⟩
          exact ⟨hstart, hw⟩
        · exact .ok (bounded_none _)
      · exact .ok (bounded_none _)
  · exact .ok (bounded_none _)

/-! ## recurrences -/

/-- **Finding a recurrence succeeds** if the magnitudes of the values up to it fit into a word, and
its start and step are within the magnitude. -/
theorem succeeds_recurrence (hfit : p.RecurrencesFit) (hv : v < p.values.size) :
    Succeeds (Bounded (magnitude p v)) (recurrence p loops v) := by
  induction v using Nat.strong_induction_on with
  | _ v ih =>
    have hword := hfit v hv
    -- an operand that is older has a recurrence within its magnitude, any other has none
    have holder (u : ValueId) {f : Option Recurrence → Except Error (Option Recurrence)}
        (hf : ∀ o, Bounded (if _h : u < v then magnitude p u else 0) o →
          Succeeds (Bounded (magnitude p v)) (f o)) : Succeeds (Bounded (magnitude p v))
        (if _h : u < v then recurrence p loops u >>= f else pure none >>= f) := by
      split
      · next h =>
        rw [dif_pos h] at hf
        exact (ih u h (Nat.lt_trans h hv)).bind hf
      · exact hf none (bounded_none _)
    rw [recurrence]
    split
    · exact .ok (bounded_none _)
    · next i hdef =>
      have hop : p.defOp (p.stripCasts v) = some (p.op i) := by
        rw [Program.defOp, hdef, Option.map_some]
      split
      · exact succeeds_phiRecurrence hword fun incoming hphi u hu => inputSize_le (hphi ▸ hop) hu
      · next op l r harith =>
        rw [harith] at hop
        have hleft {c : Int64} (hc : p.constValue r = some c) :
            op.growth (if _h : l < v then magnitude p l else 0) c.toInt.natAbs ≤ magnitude p v := by
          conv_rhs => rw [magnitude, hop]
          simp only [hc, Option.elim_some]
          exact Nat.le_max_left ..
        have hright {c : Int64} (hc : p.constValue l = some c) :
            op.growth (if _h : r < v then magnitude p r else 0) c.toInt.natAbs ≤ magnitude p v := by
          conv_rhs => rw [magnitude, hop]
          simp only [hc, Option.elim_some]
          exact Nat.le_max_right ..
        have hscaled {n : Nat} {rec : Recurrence} {c : Int64} (hrec : rec.Within n)
            (hle : op.growth n c.toInt.natAbs ≤ magnitude p v) :
            Succeeds (Bounded (magnitude p v)) (scaled op rec c) :=
          (succeeds_scaled hrec (Int.le_trans (Int.ofNat_le.2 hle) hword)).imp
            fun _ ho r hr => (ho r hr).mono hle
        refine holder l fun rl hrl => ?_
        dsimp only
        split
        · next rec c hc => exact hscaled (hrl rec rfl) (hleft hc)
        · refine holder r fun rr hrr => ?_
          split
          · next rec c hc =>
            split
            · exact .ok (bounded_none _)
            · exact hscaled (hrr rec rfl) (hright hc)
          · exact .ok (bounded_none _)
      · exact .ok (bounded_none _)

/-! ## loop exits -/

theorem stripCasts_le (p : Program) (v : ValueId) : p.stripCasts v ≤ v := by
  rw [Program.stripCasts]
  fun_induction Program.followOlder p.castSource? v with
  | case1 v src hsrc hlt ih => exact Nat.le_trans ih (Nat.le_of_lt hlt)
  | case2 => exact Nat.le_refl _
  | case3 => exact Nat.le_refl _

variable (hp : p.WellFormed) (hfit : p.RecurrencesFit)

include hp hfit

/-- Finding the condition under which a loop goes on succeeds; it is about a value of the
program. -/
theorem succeeds_exitCondition (l : LoopId) (exiting : BlockId) :
    Succeeds (∀ cond ∈ ·, cond.indvar < p.values.size) (exitCondition p loops l exiting) := by
  have hnone : Succeeds (∀ cond ∈ ·, cond.indvar < p.values.size)
      (.ok none : Except Error (Option ExitCondition)) := .ok nofun
  unfold exitCondition
  dsimp only
  split
  · next cond _ whenFalse hterm =>
    split
    · exact hnone
    · next cmp hdef =>
      split
      · next pred lhs rhs hop =>
        have hside {u : ValueId} (hu : u = lhs ∨ u = rhs) : p.stripCasts u < p.values.size :=
          Nat.lt_of_le_of_lt (stripCasts_le p u) (hp.operand_lt (i := cmp) (by
            rw [hop]
            simpa [Operation.operands] using hu))
        have hinduction {u : ValueId} (hu : u = lhs ∨ u = rhs) : Succeeds (fun _ => True)
            (isInductionVariable p loops (loops.get l) (p.stripCasts u)) :=
          (succeeds_recurrence hfit (hside hu)).bind fun _ _ => .ok trivial
        refine (hinduction (.inl rfl)).bind fun isLeft _ => ?_
        cases isLeft with
        | true => exact .ok fun c hc => by cases hc; exact hside (.inl rfl)
        | false =>
          refine (hinduction (.inr rfl)).bind fun isRight _ => ?_
          cases isRight with
          | true => exact .ok fun c hc => by cases hc; exact hside (.inr rfl)
          | false => exact hnone
      · exact hnone
  · exact hnone

/-- Counting the iterations of a loop succeeds. -/
theorem succeeds_tripCount (l : LoopId) (exiting : BlockId) :
    Succeeds (fun _ => True) (tripCount p loops l exiting) := by
  refine (succeeds_exitCondition hp hfit l exiting).bind fun o ho => ?_
  cases o with
  | none => exact .ok trivial
  | some cond => exact (succeeds_recurrence hfit (ho cond rfl)).bind fun _ _ => .ok trivial

end Induction

end DataRace
