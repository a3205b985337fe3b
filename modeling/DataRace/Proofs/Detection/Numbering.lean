import DataRace.Proofs.Detection.Report
import DataRace.Proofs.Program.Session
import DataRace.Proofs.Report.CheckPlan

/-!
# DataRace.Proofs.Detection.Numbering

The check plan of a report says what the report says.

The accesses in pairs are numbered while the bodies of the functions are listed,
and pairs are translated by looking both numbers up, where a pair that is not
found is left out.  None is: what a detection reports are instructions of the
program, and each of them is listed in the body of one function.

* `Program.StandsBefore` — the order in which instructions are listed;
* `CheckPlan.Faithful` — a plan that numbers the accesses of a report in that
  order and keeps all its pairs;
* `Detection.plan_faithful` — the plan of a detection is one.
-/

namespace DataRace

open Std

/-! ## the order of instructions -/

namespace Program

/-- Where an instruction is listed: the function, the place of the block in the function, and the
position in the block. -/
def placeOf (p : Program) (i : InstId) : Nat × Nat × Nat :=
  let f := (p.block (p.blockOf i)).func
  (f, (p.func f).blocks.idxOf (p.blockOf i), (p.inst i).pos)

/-- An instruction is listed before another one: in an earlier function, in an earlier block of the
same function, or earlier in the same block. -/
def StandsBefore (p : Program) (i j : InstId) : Prop :=
  (p.placeOf i).1 < (p.placeOf j).1 ∨ (p.placeOf i).1 = (p.placeOf j).1 ∧
    ((p.placeOf i).2.1 < (p.placeOf j).2.1 ∨ (p.placeOf i).2.1 = (p.placeOf j).2.1 ∧
      (p.placeOf i).2.2 < (p.placeOf j).2.2)

variable {p : Program} {f : FuncId}

theorem not_standsBefore_self (p : Program) (i : InstId) : ¬p.StandsBefore i i := by
  simp [StandsBefore]

theorem StandsBefore.asymm {i j : InstId} (h : p.StandsBefore i j) : ¬p.StandsBefore j i := by
  unfold StandsBefore at h ⊢
  omega

namespace Linked

/-- A block lists its instructions in order. -/
theorem pairwise_blockInsts (h : p.Linked) (b : BlockId) :
    (p.block b).insts.Pairwise p.StandsBefore := by
  refine List.pairwise_iff_getElem.2 fun k l hk hl hlt => ?_
  obtain ⟨-, hb, hpos⟩ := h.position_iff.1 (List.getElem?_eq_getElem hk)
  obtain ⟨-, hb', hpos'⟩ := h.position_iff.1 (List.getElem?_eq_getElem hl)
  have hplace (i : InstId) (hi : p.blockOf i = b) : p.placeOf i =
      ((p.block b).func, (p.func (p.block b).func).blocks.idxOf b, (p.inst i).pos) := by
    rw [placeOf, hi]
  rw [StandsBefore, hplace _ hb, hplace _ hb', hpos, hpos']
  exact .inr ⟨rfl, .inr ⟨rfl, hlt⟩⟩

/-- A function lists the instructions of its blocks in order. -/
theorem pairwise_funcInsts (h : p.Linked) (f : FuncId) :
    (p.funcInsts f).Pairwise p.StandsBefore := by
  have hblocks : (p.func f).blocks.Pairwise fun b c =>
      (p.func f).blocks.idxOf b < (p.func f).blocks.idxOf c := by
    refine List.pairwise_iff_getElem.2 fun k l hk hl hlt => ?_
    rwa [h.nodup_blocks.idxOf_getElem k hk, h.nodup_blocks.idxOf_getElem l hl]
  refine List.pairwise_flatMap.2 ⟨fun b _ => h.pairwise_blockInsts b, ?_⟩
  refine hblocks.imp_of_mem fun {b c} hb hc hlt i hi j hj => ?_
  have hplace {b : BlockId} {i : InstId} (hb : b ∈ (p.func f).blocks) (hi : i ∈ (p.block b).insts) :
      p.placeOf i = (f, (p.func f).blocks.idxOf b, (p.inst i).pos) := by
    obtain ⟨k, hk⟩ := List.mem_iff_getElem?.1 hi
    rw [placeOf, (h.position_iff.1 hk).2.1, (h.mem_blocks_iff.1 hb).2]
  rw [StandsBefore, hplace hb hi, hplace hc hj]
  exact .inr ⟨rfl, .inl hlt⟩

/-- So do the functions one after the other. -/
theorem pairwise_listing (h : p.Linked) :
    (p.funcIds.flatMap p.funcInsts).Pairwise p.StandsBefore := by
  refine List.pairwise_flatMap.2 ⟨fun f _ => h.pairwise_funcInsts f, ?_⟩
  refine List.pairwise_lt_range.imp fun hlt i hi j hj => .inl ?_
  rw [placeOf, placeOf, (h.arranged.mem_funcInsts_iff.1 hi).2,
    (h.arranged.mem_funcInsts_iff.1 hj).2]
  exact hlt

/-- Every instruction is listed in the body of a function. -/
theorem mem_listing (h : p.Linked) {i : InstId} (hi : i < p.insts.size) :
    i ∈ p.funcIds.flatMap p.funcInsts := by
  have hmem : i ∈ p.funcInsts (p.block (p.blockOf i)).func :=
    h.arranged.mem_funcInsts_iff.2 ⟨hi, rfl⟩
  refine List.mem_flatMap.2 ⟨_, List.mem_range.2 ?_, hmem⟩
  by_contra hle
  rw [funcInsts, func_of_size_le (Nat.le_of_not_lt hle)] at hmem
  cases hmem

end Linked

end Program

/-! ## plans -/

/-- An instruction occurs in a pair of a report. -/
def RaceReport.IsPaired (r : RaceReport) (i : InstId) : Prop :=
  ∃ w ∈ r.warnings, ∃ q ∈ w.pairs, q.1 = i ∨ q.2 = i

namespace CheckPlan

/-- A plan that says what a report says. -/
structure Faithful (p : Program) (r : RaceReport) (c : CheckPlan) : Prop where
  /-- The instructions in pairs have numbers, no others. -/
  isNumbered_iff : ∀ i : InstId, (∃ n, c.numbers[i]? = some n) ↔ r.IsPaired i
  /-- The numbers are those below their count. -/
  lt_size_iff : ∀ n : Nat, n < c.numbers.size ↔ ∃ i : InstId, c.numbers[i]? = some n
  injective : ∀ {i j n : Nat}, c.numbers[i]? = some n → c.numbers[j]? = some n → i = j
  lt_iff : ∀ {i j m n : Nat}, c.numbers[i]? = some m → c.numbers[j]? = some n →
    (m < n ↔ p.StandsBefore i j)
  /-- The groups are the races, pair by pair. -/
  groups : List.Forall₂ (fun w g => List.Forall₂ (fun q (n : Nat × Nat) =>
    c.numbers[q.1]? = some n.1 ∧ c.numbers[q.2]? = some n.2) w.pairs g) r.warnings c.groups
  length_pairs : c.pairs.length = (r.warnings.map (·.pairs.length)).sum
  mem_checked_iff : ∀ i, i ∈ c.checked ↔ ∃ w ∈ r.warnings, i ∈ w.accesses

variable {p : Program} {r : RaceReport}

theorem mem_listing_iff {i : InstId} (h : p.Linked) (hlt : r.IsPaired i → i < p.insts.size) :
    i ∈ listing p r ↔ r.IsPaired i := by
  have hpaired : i ∈ listing p r ↔ i ∈ p.funcIds.flatMap p.funcInsts ∧ r.IsPaired i := by
    simp [listing, RaceReport.IsPaired, eq_comm]
  rw [hpaired]
  exact ⟨And.right, fun hi => ⟨h.mem_listing (hlt hi), hi⟩⟩

theorem size_numbers (h : p.Linked) : (ofReport p r).numbers.size = (listing p r).length := by
  have hsize : (ofReport p r).numbers.size = (∅ : IdMap Nat).size + (listing p r).length :=
    IdMap.size_foldl_zipIdx (nodup_listing h) 0 fun _ _ => TreeMap.not_mem_emptyc
  rw [hsize, TreeMap.size_emptyc, Nat.zero_add]

/-- Pairs are translated one by one if every instruction in one has a number. -/
theorem forall₂_filterMap {m : IdMap Nat} {pairs : List (InstId × InstId)}
    (h : ∀ q ∈ pairs, (∃ n, m[q.1]? = some n) ∧ ∃ n, m[q.2]? = some n) :
    List.Forall₂ (fun q (n : Nat × Nat) => m[q.1]? = some n.1 ∧ m[q.2]? = some n.2) pairs
      (pairs.filterMap fun (i, j) => do return (← m[i]?, ← m[j]?)) := by
  induction pairs with
  | nil => exact .nil
  | cons q pairs ih =>
    obtain ⟨⟨⟨k, hk⟩, l, hl⟩, h⟩ := List.forall_mem_cons.1 h
    rw [List.filterMap_cons_some (b := (k, l)) (by simp [hk, hl])]
    exact .cons ⟨hk, hl⟩ (ih h)

/-- The plan of a report whose pairs are of instructions of the program. -/
theorem faithful_ofReport (h : p.Linked) (hlt : ∀ i, r.IsPaired i → i < p.insts.size) :
    Faithful p r (ofReport p r) := by
  have hnumber {i n : Nat} : (ofReport p r).numbers[i]? = some n ↔ (listing p r)[n]? = some i :=
    numbers_eq_some_iff h
  have hpairs (i : InstId) : (∃ n, (ofReport p r).numbers[i]? = some n) ↔ r.IsPaired i := by
    rw [← mem_listing_iff h (hlt i), List.mem_iff_getElem?]
    exact exists_congr fun _ => hnumber
  have hgroups : List.Forall₂ (fun w g => List.Forall₂ (fun q (n : Nat × Nat) =>
      (ofReport p r).numbers[q.1]? = some n.1 ∧ (ofReport p r).numbers[q.2]? = some n.2) w.pairs g)
      r.warnings (ofReport p r).groups := by
    refine List.forall₂_map_right_iff.2 (List.forall₂_same.2 fun w hw => ?_)
    refine forall₂_filterMap fun q hq => ?_
    exact ⟨(hpairs _).2 ⟨w, hw, q, hq, .inl rfl⟩, (hpairs _).2 ⟨w, hw, q, hq, .inr rfl⟩⟩
  have hbefore {i j m n : Nat} (hi : (ofReport p r).numbers[i]? = some m)
      (hj : (ofReport p r).numbers[j]? = some n) (hmn : m < n) : p.StandsBefore i j := by
    obtain ⟨hm, rfl⟩ := List.getElem?_eq_some_iff.1 (hnumber.1 hi)
    obtain ⟨hn, rfl⟩ := List.getElem?_eq_some_iff.1 (hnumber.1 hj)
    exact List.pairwise_iff_getElem.1 (h.pairwise_listing.filter _) m n hm hn hmn
  refine ⟨hpairs, fun n => ?_, fun hi hj => ?_,
    fun {i j m n} hi hj => ⟨hbefore hi hj, fun hij => ?_⟩, hgroups, ?_, fun i => ?_⟩
  · rw [size_numbers h]
    exact ⟨fun hn => ⟨_, hnumber.2 (List.getElem?_eq_getElem hn)⟩,
      fun ⟨_, hi⟩ => (List.getElem?_eq_some_iff.1 (hnumber.1 hi)).1⟩
  · exact Option.some.inj ((hnumber.1 hi).symm.trans (hnumber.1 hj))
  · rcases Nat.lt_trichotomy m n with hlt | rfl | hgt
    · exact hlt
    · obtain rfl := Option.some.inj ((hnumber.1 hi).symm.trans (hnumber.1 hj))
      exact absurd hij (p.not_standsBefore_self _)
    · exact absurd hij (hbefore hj hi hgt).asymm
  · have hlengths : List.Forall₂ Eq (r.warnings.map (·.pairs.length))
        ((ofReport p r).groups.map List.length) := by
      rw [List.forall₂_map_left_iff, List.forall₂_map_right_iff]
      exact hgroups.imp fun _ _ hpairs => hpairs.length_eq
    rw [List.forall₂_eq_eq_eq] at hlengths
    rw [pairs, List.length_flatten, hlengths]
  · simp [ofReport]

end CheckPlan

/-! ## detections -/

/-- A detection reports pairs of instructions of the program. -/
theorem Phases.lt_of_isPaired {s : Subject} {t : Phases} (h : run s = .ok t) {i : InstId}
    (hi : (t.settle s).report.IsPaired i) : i < s.program.insts.size := by
  obtain ⟨par, -, hops, hparts⟩ := Phases.seeded h
  obtain ⟨w, hw, ⟨k, l⟩, hkl, hside⟩ := hi
  obtain ⟨q, hq, -, rfl⟩ := mem_warnings_settle.1 hw
  rw [t.outcome_parts] at hq
  obtain ⟨p, hp, rfl⟩ := List.mem_map.1 hq
  have hseeded := (hparts.parts p hp).reported
  obtain ⟨o, ho, -, -, hsub⟩ := hseeded.origin
  obtain ⟨a, b, hab, hinst⟩ := RaceWarning.exists_of_mem_pairs hkl
  obtain ⟨ha, hb, -⟩ := hseeded.mayRace a b hab
  have hlt {c : AccessId} (hc : c ∈ p.reported.live) :
      (t.csRefinement.ops.get c).inst < s.program.insts.size := by
    rw [hops]
    exact Operations.inst_lt_of_mem_ids
      ((Partitioning.fresh_of_mem_parts ho).accesses c (hsub c hc))
  have hlta := hlt ha
  have hltb := hlt hb
  rcases hinst with ⟨rfl, rfl⟩ | ⟨rfl, rfl⟩ <;> rcases hside with rfl | rfl <;> assumption

namespace Detection

/-- **Plans lose nothing.**  Whatever program is built and checked, the plan of the report gives the
instructions in pairs the numbers from 0 on, in the order in which the functions list them, and its
groups are the pairs of the races, one by one. -/
theorem plan_faithful {calls : List Session.Call} {p : Program} {config : Config} {s : Subject}
    {d : Detection} (hp : Session.build calls = .ok p) (hs : Subject.prepare p config = .ok s)
    (hd : Detection.run s = .ok d) :
    CheckPlan.Faithful p d.report (CheckPlan.ofReport p d.report) := by
  obtain ⟨t, ht, rfl⟩ := run_eq_ok_iff.1 hd
  refine CheckPlan.faithful_ofReport (Session.linked_of_build hp) fun i hi => ?_
  rw [← (Subject.prepared hs).program]
  exact Phases.lt_of_isPaired ht hi

/-- The body of a parallel loop is built before the function that it calls, its last block before
the one in front. -/
def builtBackwards : List Session.Call :=
  [.global "g" 0 none, .declare "helper" 0, .declare "body" 1, .declare "main" 0,
    .declare "parallel_for" 2, .const 0,
    .body 1, .newBlock, .newBlock, .append (.call (.direct 0) []), .append (.jump 1),
    .positionAt 2, .append (.store 0 8), .append (.ret none),
    .positionAt 1, .append (.load 0), .append (.jump 2),
    .body 0, .append (.store 0 8), .append (.ret none),
    .body 2, .append (.call (.direct 3) [2, 8]), .append (.ret none)]

/-- The accesses are numbered against the order in which they were built. -/
theorem plan_faithful_builtBackwards : ∃ p s d, Session.build builtBackwards = .ok p ∧
    Subject.prepare p {} = .ok s ∧ Detection.run s = .ok d ∧
    d.report.warnings.map (·.pairs) = [[(2, 2), (2, 4), (2, 6), (4, 6), (6, 6)]] ∧
    (CheckPlan.ofReport p d.report).numbers.toList = [(2, 2), (4, 1), (6, 0)] ∧
    (CheckPlan.ofReport p d.report).groups = [[(2, 2), (2, 1), (2, 0), (1, 0), (0, 0)]] ∧
    CheckPlan.Faithful p d.report (CheckPlan.ofReport p d.report) := by
  have heval : (Session.build builtBackwards).toOption.any (fun p =>
      (Subject.prepare p {}).toOption.any fun s =>
        (Phases.run s).toOption.any fun t =>
          let warnings := (t.outcome.parts.filter fun q => !q.isPruned).map
            (RaceWarning.ofPartition s t.csRefinement.ops)
          warnings.map (·.pairs) == [[(2, 2), (2, 4), (2, 6), (4, 6), (6, 6)]] &&
            (CheckPlan.ofReport p { warnings }).numbers.toList == [(2, 2), (4, 1), (6, 0)] &&
            (CheckPlan.ofReport p { warnings }).groups ==
              [[(2, 2), (2, 1), (2, 0), (1, 0), (0, 0)]]) = true := by
    decide +kernel
  obtain ⟨p, hp, heval⟩ := exists_of_any_toOption heval
  obtain ⟨s, hs, heval⟩ := exists_of_any_toOption heval
  obtain ⟨t, ht, heval⟩ := exists_of_any_toOption heval
  have hd := run_eq_ok_iff.2 ⟨t, ht, rfl⟩
  simp only [Bool.and_eq_true, beq_iff_eq] at heval
  obtain ⟨⟨hpairs, hnumbers⟩, hgroups⟩ := heval
  -- a single race needs no sorting
  have hwarnings : (t.settle s).report.warnings = (t.outcome.parts.filter fun q => !q.isPruned).map
      (RaceWarning.ofPartition s t.csRefinement.ops) := by
    obtain ⟨w, hw, -⟩ := List.map_eq_singleton_iff.1 hpairs
    rw [Phases.warnings_settle, RaceReport.collect, hw]
    exact List.mergeSort_singleton w
  refine ⟨p, s, _, hp, hs, hd, ?_, ?_, ?_, plan_faithful hp hs hd⟩
  · rw [hwarnings, hpairs]
  · rw [CheckPlan.ofReport, hwarnings]
    exact hnumbers
  · rw [CheckPlan.ofReport, hwarnings]
    exact hgroups

end Detection

end DataRace
