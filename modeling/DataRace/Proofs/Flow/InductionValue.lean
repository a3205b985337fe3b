import DataRace.Proofs.Flow.InductionRange
import DataRace.Proofs.Flow.LoopForest
import DataRace.Proofs.Program.Script
import Mathlib.Tactic.Ring

/-!
# DataRace.Proofs.Flow.InductionValue

What a recurrence says about the values of a loop.

`Loop.Respects` is the meaning of a loop over the integers: what every value
may be in the iterations 0, 1, 2, …  A recurrence with a constant start and a
constant step describes its value if the value is `start + k * step` in
iteration `k`.  Following the recursion of `Induction.recurrence`, a header phi
is described by induction over the iterations, and an operation with a constant
keeps a description.

* `Loop.Respects.eq_of_stepOf`, `Loop.Respects.describes_phi` — header phis;
* `Induction.scaled_spec` — operations with a constant;
* `Induction.value_of_recurrence` — every recurrence is right.
-/

namespace DataRace

/-- The result of an operator over the integers. -/
def Arith.value? (op : Arith) (m n : Int) : Option Int :=
  match op with
  | .add => some (m + n)
  | .sub => some (m - n)
  | .mul => some (m * n)
  | .other => none

theorem Arith.value?_comm {op : Arith} (h : op ≠ .sub) (m n : Int) :
    op.value? m n = op.value? n m := by
  cases op with
  | add => rw [value?, value?, Int.add_comm]
  | sub => exact absurd rfl h
  | mul => rw [value?, value?, Int.mul_comm]
  | other => rfl

/-- The values of a program in each iteration of a loop.  Casts copy and arithmetic is exact.  A phi
of the header has the value of an input from outside at first, and then the value that an input from
inside had in the iteration before. -/
structure Loop.Respects (p : Program) (l : Loop) (σ : Nat → ValueId → Int) : Prop where
  const : ∀ {v c}, p.constValue v = some c → ∀ k, σ k v = c.toInt
  cast : ∀ {i v u}, p.op i = .cast u → p.result i = some v → ∀ k, σ k v = σ k u
  arith : ∀ {i v op a b}, p.op i = .arith op a b → p.result i = some v →
    ∀ k, ∀ n ∈ op.value? (σ k a) (σ k b), σ k v = n
  enter : ∀ {i v incoming}, p.op i = .phi incoming → p.result i = some v →
    p.blockOf i = l.header → (∃ x ∈ incoming, x.2 ∉ l.blocks) →
    ∃ x ∈ incoming, x.2 ∉ l.blocks ∧ σ 0 v = σ 0 x.1
  next : ∀ {i v incoming}, p.op i = .phi incoming → p.result i = some v →
    p.blockOf i = l.header → (∃ x ∈ incoming, x.2 ∈ l.blocks) →
    ∀ k, ∃ x ∈ incoming, x.2 ∈ l.blocks ∧ σ (k + 1) v = σ k x.1

/-- A recurrence with a constant start and step describes a sequence. -/
def Recurrence.Describes (r : Recurrence) (x : Nat → Int) : Prop :=
  ∀ s t, r.start = .const s → r.step = .const t → ∀ k : Nat, x k = s.toInt + k * t.toInt

variable {p : Program} {f : FuncId} {l : Loop} {loops : Loops} {σ : Nat → ValueId → Int}
  {v phi next start : ValueId}

namespace Induction

/-! ## constants -/

theorem toInt_of_word {n : Int} {w : Int64} (h : word n = .ok w) : w.toInt = n := by
  have hmin : Int64.minValue.toInt = -9223372036854775808 := rfl
  have hmax : Int64.maxValue.toInt = 9223372036854775807 := rfl
  unfold word at h
  split at h
  · next hin =>
    cases h
    exact Int64.toInt_ofInt_of_le (by omega) (by omega)
  · cases h

/-- An operation with a constant does to every element of a sequence what it does to the
recurrence. -/
theorem scaled_spec {op : Arith} {r r' : Recurrence} {c : Int64}
    (h : scaled op r c = .ok (some r')) : r'.header = r.header ∧ ∀ x y : Nat → Int,
      r.Describes x → (∀ k, ∀ n ∈ op.value? (x k) c.toInt, y k = n) → r'.Describes y := by
  obtain ⟨header, start, step⟩ := r
  cases start with
  | value u => cases op <;> cases h
  | const s =>
    cases op with
    | add =>
      obtain ⟨w, hw, h⟩ := exists_of_bind_eq_ok h
      cases h
      refine ⟨rfl, fun x y hx hy => ?_⟩
      rintro _ t ⟨⟩ ht k
      rw [hy k _ rfl, hx s t rfl ht k, toInt_of_word hw]
      ring
    | sub =>
      obtain ⟨w, hw, h⟩ := exists_of_bind_eq_ok h
      cases h
      refine ⟨rfl, fun x y hx hy => ?_⟩
      rintro _ t ⟨⟩ ht k
      rw [hy k _ rfl, hx s t rfl ht k, toInt_of_word hw]
      ring
    | mul =>
      cases step with
      | value u => cases h
      | const t =>
        obtain ⟨w, hw, h⟩ := exists_of_bind_eq_ok h
        obtain ⟨u, hu, h⟩ := exists_of_bind_eq_ok h
        cases h
        refine ⟨rfl, fun x y hx hy => ?_⟩
        rintro _ _ ⟨⟩ ⟨⟩ k
        rw [hy k _ rfl, hx s t rfl rfl k, toInt_of_word hw, toInt_of_word hu]
        ring
    | other => cases h

/-! ## header phis -/

/-- Of two inputs one comes from outside the loop and the other from inside. -/
theorem splitInputs_spec {incoming : List (ValueId × BlockId)} (hlen : incoming.length = 2)
    (h : splitInputs l incoming = (some start, some next)) :
    ((∃ x ∈ incoming, x.2 ∉ l.blocks) ∧ ∀ x ∈ incoming, x.2 ∉ l.blocks → x.1 = start) ∧
      (∃ x ∈ incoming, x.2 ∈ l.blocks) ∧ ∀ x ∈ incoming, x.2 ∈ l.blocks → x.1 = next := by
  obtain ⟨⟨u, b⟩, ⟨w, c⟩, rfl⟩ := List.length_eq_two.1 hlen
  revert h
  simp only [splitInputs, List.foldl_cons, List.foldl_nil, ← Loop.contains_iff, List.mem_cons,
    List.not_mem_nil, or_false]
  cases hb : l.contains b <;> cases hc : l.contains c <;> simp [hb, hc]

/-- What the recurrence of a header phi is made of. -/
theorem phiRecurrence_spec {i : InstId} {r : Recurrence}
    (h : phiRecurrence p loops i = .ok (some r)) (hphi : p.result i = some phi) :
    ∃ j incoming start next step, loops.loopOf (p.blockOf i) = some j ∧
      (loops.get j).header = p.blockOf i ∧ p.op i = .phi incoming ∧ incoming.length = 2 ∧
      splitInputs (loops.get j) incoming = (some start, some next) ∧
      stepOf p phi next = some step ∧ r.header = p.blockOf i ∧ r.start = term p start ∧
      match step with
      | .inl u => r.step = term p u
      | .inr c => ∃ w, word (-c.toInt) = .ok w ∧ r.step = .const w := by
  unfold phiRecurrence at h
  dsimp only at h
  split at h
  · next incoming l phi' hop hl hresult =>
    cases hresult.symm.trans hphi
    obtain ⟨j, hj, rfl⟩ := Option.map_eq_some_iff.1 hl
    split at h
    · cases h
    · next hnot =>
      push Not at hnot
      obtain ⟨hheader, hlen⟩ := hnot
      split at h
      · next start next hsplit =>
        refine ⟨j, incoming, start, next, ?_⟩
        split at h
        · next u hstep =>
          cases h
          exact ⟨.inl u, hj, hheader, hop, hlen, hsplit, hstep, hheader, rfl, rfl⟩
        · next c hstep =>
          obtain ⟨w, hw, h⟩ := exists_of_bind_eq_ok h
          cases h
          exact ⟨.inr c, hj, hheader, hop, hlen, hsplit, hstep, hheader, rfl, w, hw, rfl⟩
        · cases h
      · cases h
  · cases h

end Induction

open Induction

/-- The instruction behind a value has the value as its result. -/
theorem Program.WellFormed.result_of_defInst (hp : p.WellFormed) (hv : v < p.values.size)
    {i : InstId} (h : p.defInst v = some i) : p.result i = some v := by
  unfold Program.defInst at h
  split at h
  · next hdef =>
    cases h
    exact hp.result_iff.2 ⟨hv, hdef⟩
  · cases h

/-- Values of some kind such that casts copy. -/
def Program.CopiesCasts {α : Type} (p : Program) (val : ValueId → α) : Prop :=
  ∀ i v u, p.op i = .cast u → p.result i = some v → val v = val u

/-- A value is what is under its casts. -/
theorem Program.CopiesCasts.eq_stripCasts {α : Type} {val : ValueId → α} (h : p.CopiesCasts val)
    (hp : p.WellFormed) (hv : v < p.values.size) : val v = val (p.stripCasts v) := by
  rw [stripCasts]
  fun_induction followOlder p.castSource? v with
  | case1 v src hsrc hlt ih =>
    rw [← ih (Nat.lt_trans hlt hv)]
    unfold castSource? at hsrc
    split at hsrc
    · next u hop =>
      cases hsrc
      obtain ⟨i, hi, hcast⟩ := Option.map_eq_some_iff.1 hop
      exact h i v src hcast (hp.result_of_defInst hv hi)
    · cases hsrc
  | case2 => rfl
  | case3 => rfl

/-- A sequence that starts with a constant and grows by a constant. -/
theorem Recurrence.describes_of_step {r : Recurrence} {x : Nat → Int}
    (hstart : ∀ s, r.start = .const s → x 0 = s.toInt)
    (hstep : ∀ t, r.step = .const t → ∀ k, x (k + 1) = x k + t.toInt) : r.Describes x := by
  intro s t hs ht k
  induction k with
  | zero => rw [hstart s hs, Int.natCast_zero, Int.zero_mul, Int.add_zero]
  | succ k ih =>
    rw [hstep t ht, ih, Int.natCast_succ]
    ring

namespace Loop.Respects

variable (hσ : l.Respects p σ) (hp : p.WellFormed)

include hσ hp

/-- A value is what is under its casts. -/
theorem eq_stripCasts (hv : v < p.values.size) (k : Nat) : σ k v = σ k (p.stripCasts v) :=
  Program.CopiesCasts.eq_stripCasts (fun _ _ _ hop hv => hσ.cast hop hv k) hp hv

theorem eq_of_term (hv : v < p.values.size) {c : Int64} (h : term p v = .const c) (k : Nat) :
    σ k v = c.toInt := by
  rw [hσ.eq_stripCasts hp hv]
  unfold term at h
  dsimp only at h
  split at h
  · next d hd =>
    cases h
    exact hσ.const hd k
  · cases h

/-- An operation computes exactly from what is under the casts of its operands. -/
theorem eq_of_arith {op : Arith} {a b : ValueId} (hv : v < p.values.size)
    (hop : p.defOp (p.stripCasts v) = some (.arith op a b)) :
    a < p.values.size ∧ b < p.values.size ∧
      ∀ k, ∀ n ∈ op.value? (σ k (p.stripCasts a)) (σ k (p.stripCasts b)), σ k v = n := by
  obtain ⟨i, hi, harith⟩ := Option.map_eq_some_iff.1 hop
  have hlt {u : ValueId} (hu : u = a ∨ u = b) : u < p.values.size :=
    hp.operand_lt (i := i) (by simpa [harith, Operation.operands] using hu)
  have hstrip : p.stripCasts v < p.values.size := Nat.lt_of_le_of_lt (stripCasts_le p v) hv
  refine ⟨hlt (.inl rfl), hlt (.inr rfl), fun k n hn => ?_⟩
  rw [← hσ.eq_stripCasts hp (hlt (.inl rfl)), ← hσ.eq_stripCasts hp (hlt (.inr rfl))] at hn
  rw [hσ.eq_stripCasts hp hv, hσ.arith harith (hp.result_of_defInst hstrip hi) k n hn]

/-- The input from inside the loop is what the phi grows to. -/
theorem eq_of_stepOf (hv : next < p.values.size) {step : ValueId ⊕ Int64}
    (h : stepOf p phi next = some step) (k : Nat) :
    match step with
    | .inl u => u < p.values.size ∧ σ k next = σ k phi + σ k u
    | .inr c => σ k next = σ k phi - c.toInt := by
  unfold stepOf at h
  split at h
  · next a b hop =>
    obtain ⟨ha, hb, hadd⟩ := hσ.eq_of_arith hp hv hop
    split at h
    · next hphi =>
      cases h
      exact ⟨hb, by rw [hadd k _ rfl, hphi, ← hσ.eq_stripCasts hp hb]⟩
    · split at h
      · next hphi =>
        cases h
        exact ⟨ha, by rw [hadd k _ rfl, hphi, ← hσ.eq_stripCasts hp ha, Int.add_comm]⟩
      · cases h
  · next a b hop =>
    obtain ⟨-, hb, hsub⟩ := hσ.eq_of_arith hp hv hop
    split at h
    · next hphi =>
      obtain ⟨c, hc, rfl⟩ := Option.map_eq_some_iff.1 h
      rw [hsub k _ rfl, hphi, ← hσ.eq_stripCasts hp hb, hσ.const hc]
    · cases h
  · cases h

/-- The recurrence of a header phi describes the phi. -/
theorem describes_phi {i : InstId} {r : Recurrence}
    (h : phiRecurrence p loops i = .ok (some r)) (hphi : p.result i = some phi)
    (hl : ∀ b j, loops.loopOf b = some j → (loops.get j).header = l.header → loops.get j = l)
    (hr : r.header = l.header) : r.Describes (σ · phi) := by
  obtain ⟨j, incoming, start, next, step, hj, hheader, hop, hlen, hsplit, hstep, hr', hstart,
    hgrows⟩ := phiRecurrence_spec h hphi
  have heq := hl _ j hj (hheader.trans (hr'.symm.trans hr))
  rw [heq] at hheader hsplit
  obtain ⟨hstart_mem, hnext_mem⟩ := mem_of_splitInputs hsplit
  obtain ⟨⟨houtside, heq_start⟩, hinside, heq_next⟩ := splitInputs_spec hlen hsplit
  have hlt {u : ValueId} (hu : u ∈ incoming.map (·.1)) : u < p.values.size :=
    hp.operand_lt (i := i) (by rwa [hop, Operation.operands])
  refine Recurrence.describes_of_step (fun s hs => ?_) fun t ht k => ?_
  · obtain ⟨x, hx, hout, henter⟩ := hσ.enter hop hphi hheader.symm houtside
    rw [henter, heq_start x hx hout, hσ.eq_of_term hp (hlt hstart_mem) (hstart.symm.trans hs)]
  · obtain ⟨x, hx, hin, hnext⟩ := hσ.next hop hphi hheader.symm hinside k
    have hvalue := hσ.eq_of_stepOf hp (hlt hnext_mem) hstep k
    rw [hnext, heq_next x hx hin]
    cases step with
    | inl u => rw [hvalue.2, hσ.eq_of_term hp hvalue.1 (hgrows.symm.trans ht)]
    | inr c =>
      obtain ⟨w, hw, hgrows⟩ := hgrows
      cases hgrows.symm.trans ht
      rw [hvalue, toInt_of_word hw, Int.sub_eq_add_neg]

end Loop.Respects

namespace Induction

/-! ## recurrences -/

/-- An operand of an operation has a recurrence if it is older than the result. -/
theorem exists_of_older {u : ValueId} {r : Recurrence}
    {g : Option Recurrence → Except Error (Option Recurrence)}
    (h : (if _h : u < v then recurrence p loops u >>= g else pure none >>= g) = .ok (some r)) :
    ∃ o, (∀ r' ∈ o, u < v ∧ recurrence p loops u = .ok (some r')) ∧ g o = .ok (some r) := by
  split at h
  · next hlt =>
    obtain ⟨o, ho, h⟩ := exists_of_bind_eq_ok h
    exact ⟨o, fun r' hr' => ⟨hlt, hr' ▸ ho⟩, h⟩
  · exact ⟨none, nofun, h⟩

/-- The recurrence of an operation is that of an older operand, changed by the constant that is the
other operand. -/
theorem recurrence_spec {r : Recurrence} (h : recurrence p loops v = .ok (some r)) :
    ∃ i, p.defInst (p.stripCasts v) = some i ∧
      (phiRecurrence p loops i = .ok (some r) ∨ ∃ op a b r' c, p.op i = .arith op a b ∧
        scaled op r' c = .ok (some r) ∧
        ((a < v ∧ recurrence p loops a = .ok (some r') ∧ p.constValue b = some c) ∨
          op ≠ .sub ∧ b < v ∧ recurrence p loops b = .ok (some r') ∧ p.constValue a = some c)) := by
  rw [recurrence] at h
  split at h
  · cases h
  · next i hi =>
    refine ⟨i, hi, ?_⟩
    split at h
    · exact .inl h
    · next op a b hop =>
      obtain ⟨ra, hra, h⟩ := exists_of_older h
      dsimp only at h
      split at h
      · next r' c hc =>
        obtain ⟨hlt, hr'⟩ := hra r' rfl
        exact .inr ⟨op, a, b, r', c, hop, h, .inl ⟨hlt, hr', hc⟩⟩
      · obtain ⟨rb, hrb, h⟩ := exists_of_older h
        split at h
        · next r' c hc =>
          obtain ⟨hlt, hr'⟩ := hrb r' rfl
          split at h
          · cases h
          · next hsub => exact .inr ⟨op, a, b, r', c, hop, h, .inr ⟨hsub, hlt, hr', hc⟩⟩
        · cases h
    · cases h

/-- A recurrence of a loop describes its value wherever the loop is respected. -/
theorem describes_of_recurrence (hp : p.WellFormed) (hσ : l.Respects p σ)
    (hl : ∀ b j, loops.loopOf b = some j → (loops.get j).header = l.header → loops.get j = l)
    (hv : v < p.values.size) {r : Recurrence} (h : recurrence p loops v = .ok (some r))
    (hr : r.header = l.header) : r.Describes (σ · v) := by
  -- on the recursion of the oracle: an operand it goes on with is older than the value
  induction v using Nat.strong_induction_on generalizing r with
  | _ v ih =>
    have hstrip : p.stripCasts v < p.values.size := Nat.lt_of_le_of_lt (stripCasts_le p v) hv
    obtain ⟨i, hi, hphi | ⟨op, a, b, r', c, hop, hscaled, hside⟩⟩ := recurrence_spec h
    · have hdescribes := hσ.describes_phi hp hphi (hp.result_of_defInst hstrip hi) hl hr
      simpa only [← hσ.eq_stripCasts hp hv] using hdescribes
    · obtain ⟨hheader, hscaled⟩ := scaled_spec hscaled
      obtain ⟨ha, hb, hvalue⟩ := hσ.eq_of_arith hp hv (Option.map_eq_some_iff.2 ⟨i, hi, hop⟩)
      simp only [← hσ.eq_stripCasts hp ha, ← hσ.eq_stripCasts hp hb] at hvalue
      rcases hside with ⟨hlt, hrec, hc⟩ | ⟨hsub, hlt, hrec, hc⟩
      · refine hscaled _ _ (ih a hlt ha hrec (hheader.symm.trans hr)) fun k n hn => ?_
        exact hvalue k n (by rwa [hσ.const hc])
      · refine hscaled _ _ (ih b hlt hb hrec (hheader.symm.trans hr)) fun k n hn => ?_
        exact hvalue k n (by rwa [hσ.const hc, Arith.value?_comm hsub])

/-- **Recurrences are right.**  In every assignment of integers that respects a loop, a value with a
recurrence of the loop is `start + k * step` in iteration `k`. -/
theorem value_of_recurrence (hp : p.Finished) {j : LoopId} (hj : j < (p.loops f).loops.size)
    (hv : v < p.values.size) {r : Recurrence} (h : recurrence p (p.loops f) v = .ok (some r))
    (hr : r.header = ((p.loops f).get j).header) {s t : Int64} (hs : r.start = .const s)
    (ht : r.step = .const t) (hσ : ((p.loops f).get j).Respects p σ) (k : Nat) :
    σ k v = s.toInt + k * t.toInt := by
  refine describes_of_recurrence hp.wellFormed hσ (fun b i hi heq => ?_) hv h hr s t hs ht k
  have hlt := (Loops.mem_around_iff.1 (Loops.mem_around_of_loopOf hi)).1
  rw [Loops.header_inj hp.linked hlt hj heq]

/-- A loop that counts from 0 and computes three times the counter less one. -/
def tripled : List Command :=
  [.declare "main" 0, .const 0, .const 1, .const 3, .body 0, .block 0, .block 0, .block 0,
    .append 0 0 (.jump 1),
    .append 0 1 (.phi []), .append 0 1 (.arith .mul 3 4), .append 0 1 (.arith .sub 5 2),
    .append 0 1 (.compare .slt 4 3), .append 0 1 (.branch 7 2 3),
    .append 0 2 (.arith .add 4 2), .append 0 2 (.cast 8), .append 0 2 (.jump 1),
    .incoming 4 1 0, .incoming 4 9 2,
    .append 0 3 (.ret none)]

/-- The values of the loop in iteration `k`. -/
def tripledAt (k : Nat) (v : ValueId) : Int :=
  ([0, 0, 1, 3, k, 3 * k, 3 * k - 1, 0, k + 1, k + 1] : List Int).getD v 0

theorem respects_tripled : (((Builder.ofScript tripled).loops 0).get 0).Respects
    (Builder.ofScript tripled) tripledAt := by
  have hconst : ∀ v < (Builder.ofScript tripled).values.size,
      ((Builder.ofScript tripled).constValue v).all fun c => [(1, 0), (2, 1), (3, 3)].contains
      (v, c) := by
    decide +kernel
  have hops : ∀ i < (Builder.ofScript tripled).insts.size,
      ∀ v ∈ (Builder.ofScript tripled).result i, ((Builder.ofScript tripled).op i, v) ∈
        [(.phi [(1, 0), (9, 2)], 4), (.arith .mul 3 4, 5), (.arith .sub 5 2, 6),
          (.compare .slt 4 3, 7), (.arith .add 4 2, 8), (.cast 8, 9)] := by
    decide +kernel
  have hblocks : 0 ∉ (((Builder.ofScript tripled).loops 0).get 0).blocks ∧
      2 ∈ (((Builder.ofScript tripled).loops 0).get 0).blocks := by
    decide +kernel
  have hop {i : InstId} {v : ValueId} (hv : (Builder.ofScript tripled).result i = some v) :=
    hops i (Program.lt_of_result hv) v hv
  constructor
  case const =>
    intro v c hc k
    have hlt : v < (Builder.ofScript tripled).values.size := by
      by_contra hle
      rw [Program.constValue, Program.value, Table.getD_of_size_le (Nat.le_of_not_lt hle)] at hc
      cases hc
    have hmem := hconst v hlt
    simp only [hc, Option.all_some, List.contains_iff_mem, List.mem_cons, Prod.mk.injEq,
      List.not_mem_nil, or_false] at hmem
    rcases hmem with ⟨rfl, rfl⟩ | ⟨rfl, rfl⟩ | ⟨rfl, rfl⟩ <;> rfl
  case cast =>
    intro i v u hcast hv k
    have hmem := hop hv
    simp only [hcast, List.mem_cons, Prod.mk.injEq, Operation.cast.injEq, reduceCtorEq, false_and,
      List.not_mem_nil, or_false, false_or] at hmem
    obtain ⟨rfl, rfl⟩ := hmem
    rfl
  case arith =>
    intro i v op a b harith hv k n hn
    have hmem := hop hv
    simp only [harith, List.mem_cons, Prod.mk.injEq, Operation.arith.injEq, reduceCtorEq, false_and,
      List.not_mem_nil, or_false, false_or] at hmem
    rcases hmem with ⟨⟨rfl, rfl, rfl⟩, rfl⟩ | ⟨⟨rfl, rfl, rfl⟩, rfl⟩ | ⟨⟨rfl, rfl, rfl⟩, rfl⟩ <;>
      exact Option.some.inj hn
  case enter =>
    intro i v incoming hphi hv _ _
    have hmem := hop hv
    simp only [hphi, List.mem_cons, Prod.mk.injEq, Operation.phi.injEq, reduceCtorEq, false_and,
      List.not_mem_nil, or_false] at hmem
    obtain ⟨rfl, rfl⟩ := hmem
    exact ⟨(1, 0), List.mem_cons_self, hblocks.1, rfl⟩
  case next =>
    intro i v incoming hphi hv _ _ k
    have hmem := hop hv
    simp only [hphi, List.mem_cons, Prod.mk.injEq, Operation.phi.injEq, reduceCtorEq, false_and,
      List.not_mem_nil, or_false] at hmem
    obtain ⟨rfl, rfl⟩ := hmem
    exact ⟨(9, 2), List.mem_cons_of_mem _ List.mem_cons_self, hblocks.2, rfl⟩

theorem value_of_recurrence_tripled : (Builder.ofScript tripled).Finished ∧
    recurrence (Builder.ofScript tripled) ((Builder.ofScript tripled).loops 0) 6 =
      .ok (some ⟨1, .const (-1), .const 3⟩) ∧
    (((Builder.ofScript tripled).loops 0).get 0).header = 1 ∧
    (((Builder.ofScript tripled).loops 0).get 0).Respects (Builder.ofScript tripled) tripledAt ∧
    ∀ k, tripledAt k 6 = (-1 : Int64).toInt + k * (3 : Int64).toInt := by
  have hfin : (Builder.ofScript tripled).Finished := Builder.finished_ofScript (by decide +kernel)
  have hrec : recurrence (Builder.ofScript tripled) ((Builder.ofScript tripled).loops 0) 6 =
      .ok (some ⟨1, .const (-1), .const 3⟩) := by decide +kernel
  have hheader : (((Builder.ofScript tripled).loops 0).get 0).header = 1 := by decide +kernel
  exact ⟨hfin, hrec, hheader, respects_tripled, value_of_recurrence hfin (by decide +kernel)
    (by decide +kernel) hrec hheader.symm rfl rfl respects_tripled⟩

end Induction

end DataRace
