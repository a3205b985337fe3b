import DataRace.Partition.Escape
import DataRace.Proofs.Partition.Classes

/-!
# DataRace.Proofs.Partition.Seeding

Seeding collects exactly the pairs that may race, as long as the budget lasts.

Pairs arrive in batches, one batch for each combination of a trunk and a
branch list with a write among them, and one round of batches for each fork.
What a batch, a round and all rounds do to a set of pairs has one shape,
`RiskyPairs.Gains`: nothing foreign comes in, nothing is missing while the set
is not over budget, and the budget is never exceeded.  The shape composes, so
the statement about all rounds follows from the one about a batch.

* `Gains.trans` — two growths compose;
* `addBatch_gains`, `addFork_gains`, `foldl_addFork_gains` — batch, fork, all forks;
* `Partitioning.seedVisible_exact` — what a seeded partition holds.
-/

namespace DataRace

open Std

namespace RiskyPairs

theorem ordered_eq_iff {x y a b : AccessId} :
    ordered x y = (a, b) ↔ a ≤ b ∧ (x = a ∧ y = b ∨ x = b ∧ y = a) := by
  unfold ordered
  split <;> grind

/-! ## batches -/

theorem mem_foldl_insert_right {a : AccessId} {bs : List AccessId} {s : PairSet}
    {q : AccessId × AccessId} :
    q ∈ bs.foldl (fun s b => s.insert (ordered a b)) s ↔ q ∈ s ∨ ∃ b ∈ bs, ordered a b = q := by
  induction bs generalizing s with
  | nil => simp
  | cons b bs ih =>
    rw [List.foldl_cons, ih, TreeSet.mem_insert, LawfulEqCmp.compare_eq_iff_eq]
    grind

theorem mem_foldl_insert {as bs : List AccessId} {s : PairSet} {q : AccessId × AccessId} :
    q ∈ as.foldl (fun s a => bs.foldl (fun s b => s.insert (ordered a b)) s) s ↔
      q ∈ s ∨ ∃ a ∈ as, ∃ b ∈ bs, ordered a b = q := by
  induction as generalizing s with
  | nil => simp
  | cons a as ih =>
    rw [List.foldl_cons, ih, mem_foldl_insert_right]
    grind

theorem size_foldl_insert_right (a : AccessId) (bs : List AccessId) (s : PairSet) :
    s.size ≤ (bs.foldl (fun s b => s.insert (ordered a b)) s).size ∧
      (bs.foldl (fun s b => s.insert (ordered a b)) s).size ≤ s.size + bs.length := by
  induction bs generalizing s with
  | nil => simp
  | cons b bs ih =>
    have hle := TreeSet.size_le_size_insert (t := s) (k := ordered a b)
    have hge := TreeSet.size_insert_le (t := s) (k := ordered a b)
    have := ih (s.insert (ordered a b))
    rw [List.foldl_cons, List.length_cons]
    omega

/-- A batch adds at most one pair for each combination. -/
theorem size_foldl_insert (as bs : List AccessId) (s : PairSet) :
    s.size ≤ (as.foldl (fun s a => bs.foldl (fun s b => s.insert (ordered a b)) s) s).size ∧
      (as.foldl (fun s a => bs.foldl (fun s b => s.insert (ordered a b)) s) s).size ≤
        s.size + as.length * bs.length := by
  induction as generalizing s with
  | nil => simp
  | cons a as ih =>
    have hrow := size_foldl_insert_right a bs s
    have := ih (bs.foldl (fun s b => s.insert (ordered a b)) s)
    rw [List.foldl_cons, List.length_cons, Nat.succ_mul]
    omega

/-- The set `r'` is `r` after pairs with property `new` were offered: the settings are the same, a
set that is over budget stays so, nothing else came in, all of them came in unless the budget
stopped it, and the budget still holds if it held. -/
structure Gains (r r' : RiskyPairs) (new : AccessId × AccessId → Prop) : Prop where
  all_eq : r'.all = r.all
  budget_eq : r'.budget = r.budget
  sticky : r.isOverBudget = true → r'.isOverBudget = true
  sound : ∀ q ∈ r'.pairs, q ∈ r.pairs ∨ new q
  complete : r.all = true ∨ r'.isOverBudget = false → ∀ q, q ∈ r.pairs ∨ new q → q ∈ r'.pairs
  bounded : r.all = false → r.pairs.size ≤ r.budget → r'.pairs.size ≤ r.budget

namespace Gains

theorem refl (r : RiskyPairs) : Gains r r fun _ => False where
  all_eq := rfl
  budget_eq := rfl
  sticky h := h
  sound q h := .inl h
  complete _ q h := by simpa using h
  bounded _ h := h

theorem trans {r r' r'' : RiskyPairs} {new new' : AccessId × AccessId → Prop}
    (h : Gains r r' new) (h' : Gains r' r'' new') : Gains r r'' fun q => new q ∨ new' q where
  all_eq := h'.all_eq.trans h.all_eq
  budget_eq := h'.budget_eq.trans h.budget_eq
  sticky hr := h'.sticky (h.sticky hr)
  sound q hq := by
    rcases h'.sound q hq with hq | hq
    · rcases h.sound q hq with hq | hq
      · exact .inl hq
      · exact .inr (.inl hq)
    · exact .inr (.inr hq)
  complete hfree q hq := by
    have hfree' : r'.all = true ∨ r''.isOverBudget = false := by rw [h.all_eq]; exact hfree
    have hmid : r.all = true ∨ r'.isOverBudget = false := by
      rcases hfree with hall | hfree
      · exact .inl hall
      · refine .inr (Bool.eq_false_iff.2 fun hover => ?_)
        rw [h'.sticky hover] at hfree
        contradiction
    rcases hq with hq | hq | hq
    · exact h'.complete hfree' q (.inl (h.complete hmid q (.inl hq)))
    · exact h'.complete hfree' q (.inl (h.complete hmid q (.inr hq)))
    · exact h'.complete hfree' q (.inr hq)
  bounded hall hsize := by
    have := h'.bounded (h.all_eq.trans hall) (by rw [h.budget_eq]; exact h.bounded hall hsize)
    rwa [h.budget_eq] at this

theorem congr {r r' : RiskyPairs} {new new' : AccessId × AccessId → Prop} (h : Gains r r' new)
    (hiff : ∀ q, new q ↔ new' q) : Gains r r' new' := by
  obtain rfl : new = new' := funext fun q => propext (hiff q)
  exact h

end Gains

/-- A batch is taken as a whole, or it is dropped and the set is over budget from then on. -/
theorem addBatch_gains (r : RiskyPairs) (as bs : List AccessId) :
    Gains r (r.addBatch as bs) fun q => ∃ a ∈ as, ∃ b ∈ bs, ordered a b = q := by
  have hsize := size_foldl_insert as bs r.pairs
  unfold addBatch
  split
  · next hdrop =>
    have hall : r.all = false := by
      simp only [Bool.and_eq_true, Bool.not_eq_true'] at hdrop
      exact hdrop.1
    exact {
      all_eq := rfl
      budget_eq := rfl
      sticky := fun _ => by simp [isOverBudget]
      sound := fun q hq => .inl hq
      complete := fun hfree => by simp [isOverBudget, hall] at hfree
      bounded := fun _ h => h }
  · next hfit =>
    exact {
      all_eq := rfl
      budget_eq := rfl
      sticky := fun h => by
        simp only [isOverBudget, Bool.or_eq_true, decide_eq_true_eq] at h ⊢
        exact h.imp_right fun h => Nat.le_trans h hsize.1
      sound := fun q hq => mem_foldl_insert.1 hq
      complete := fun _ q hq => mem_foldl_insert.2 hq
      bounded := fun hall _ => by
        simp only [hall, fits, Bool.not_false, Bool.true_and, Bool.not_eq_true', Bool.not_eq_false,
          Bool.and_eq_true, decide_eq_true_eq] at hfit
        exact Nat.le_trans hsize.2 hfit.2 }

end RiskyPairs

open RiskyPairs

namespace Partitioning

/-! ## forks -/

theorem mem_onSide {m : Partitioning} {side : Side} {write : Bool} {found : List (AccessId × Side)}
    {a : AccessId} : a ∈ m.onSide side write found ↔ (a, side) ∈ found ∧ m.isWrite a = write := by
  simp only [onSide, List.mem_map, List.mem_filter, Bool.and_eq_true, decide_eq_true_eq, beq_iff_eq]
  constructor
  · rintro ⟨⟨a, t⟩, ⟨hmem, rfl, hw⟩, rfl⟩
    exact ⟨hmem, hw⟩
  · rintro ⟨hmem, hw⟩
    exact ⟨(a, side), ⟨hmem, rfl, hw⟩, rfl⟩

/-- The pair has an access on each side of a fork, one of which writes. -/
def Crosses (m : Partitioning) (found : List (AccessId × Side)) (q : AccessId × AccessId) : Prop :=
  ∃ a b, (a, .trunk) ∈ found ∧ (b, .branch) ∈ found ∧ (m.isWrite a = true ∨ m.isWrite b = true) ∧
    ordered a b = q

/-- The three batches of a fork offer exactly the pairs that cross it. -/
theorem addFork_gains (m : Partitioning) (r : RiskyPairs) (found : List (AccessId × Side)) :
    Gains r (m.addFork r found) (m.Crosses found) := by
  unfold addFork
  split
  · next hstop =>
    simp only [Bool.and_eq_true, Bool.not_eq_true'] at hstop
    exact {
      all_eq := rfl
      budget_eq := rfl
      sticky := fun h => h
      sound := fun q hq => .inl hq
      complete := fun hfree => by simp [hstop.1, hstop.2] at hfree
      bounded := fun _ h => h }
  · refine (((addBatch_gains _ _ _).trans (addBatch_gains _ _ _)).trans
      (addBatch_gains _ _ _)).congr fun q => ?_
    simp only [mem_onSide, Crosses]
    constructor
    · rintro ((⟨a, ⟨ha, hwa⟩, b, ⟨hb, hwb⟩, rfl⟩ | ⟨a, ⟨ha, hwa⟩, b, ⟨hb, hwb⟩, rfl⟩) |
        ⟨a, ⟨ha, hwa⟩, b, ⟨hb, hwb⟩, rfl⟩)
      · exact ⟨a, b, ha, hb, .inl hwa, rfl⟩
      · exact ⟨a, b, ha, hb, .inl hwa, rfl⟩
      · exact ⟨a, b, ha, hb, .inr hwb, rfl⟩
    · rintro ⟨a, b, ha, hb, hw, rfl⟩
      cases hwa : m.isWrite a with
      | true =>
        cases hwb : m.isWrite b with
        | true => exact .inl (.inl ⟨a, ⟨ha, hwa⟩, b, ⟨hb, hwb⟩, rfl⟩)
        | false => exact .inl (.inr ⟨a, ⟨ha, hwa⟩, b, ⟨hb, hwb⟩, rfl⟩)
      | false =>
        have hwb : m.isWrite b = true := by simpa [hwa] using hw
        exact .inr ⟨a, ⟨ha, hwa⟩, b, ⟨hb, hwb⟩, rfl⟩

theorem foldl_addFork_gains (m : Partitioning) (r : RiskyPairs)
    (forks : List (List (AccessId × Side))) :
    Gains r (forks.foldl m.addFork r) fun q => ∃ found ∈ forks, m.Crosses found q := by
  induction forks generalizing r with
  | nil => exact (Gains.refl r).congr (by simp)
  | cons found forks ih =>
    refine ((addFork_gains m r found).trans (ih _)).congr fun q => ?_
    simp

/-! ## the accesses under each fork -/

section Points

variable {s : Subject} {ops : Operations} {par : Parallelism} {isVisible : InstId → Bool}
  {ruledOut : AccessId → Point → Bool} {accesses : List AccessId}

/-- With a predicate that has no effects, the accesses under the forks are a plain fold over the
points that are not ruled out. -/
theorem underForks_eq_foldl :
    Id.run (underForks s ops par isVisible (fun a q => pure (ruledOut a q)) accesses) =
      ((accesses.flatMap fun a =>
          ((par.pointsOf s.program (ops.get a).inst).filter fun q => isVisible q.spawn).map
          (a, ·)).filter
        fun (a, q) => !ruledOut a q).foldl
        (fun found e => found.insert e.2.spawn (found.getD e.2.spawn [] ++ [(e.1, e.2.side)]))
        ∅ := by
  unfold underForks
  simp only
  generalize (∅ : IdMap (List (AccessId × Side))) = m
  generalize accesses.flatMap _ = points
  induction points generalizing m with
  | nil => rfl
  | cons e points ih =>
    obtain ⟨a, q⟩ := e
    rw [List.foldlM_cons, List.filter_cons]
    cases hr : ruledOut a q with
    | true => simpa [hr] using ih m
    | false => simpa [hr] using ih _

/-- An access stands under a fork with every side it is on there, unless it is ruled out. -/
theorem mem_getD_underForks {fork : InstId} {a : AccessId} {side : Side} :
    (a, side) ∈ TreeMap.getD
        (Id.run (underForks s ops par isVisible (fun a q => pure (ruledOut a q)) accesses))
        fork [] ↔
      a ∈ accesses ∧ ⟨fork, side⟩ ∈ par.pointsOf s.program (ops.get a).inst ∧
        isVisible fork = true ∧ ruledOut a ⟨fork, side⟩ = false := by
  rw [underForks_eq_foldl, IdMap.mem_getD_foldl_append]
  simp only [List.mem_filter, List.mem_flatMap, List.mem_map, Bool.not_eq_true', Prod.mk.injEq]
  constructor
  · rintro (h | ⟨⟨b, q⟩, ⟨⟨c, hc, r, ⟨hr, hvis⟩, heq⟩, hout⟩, rfl, rfl, rfl⟩)
    · simp at h
    · obtain ⟨rfl, rfl⟩ := heq
      exact ⟨hc, hr, hvis, hout⟩
  · rintro ⟨ha, hq, hvis, hout⟩
    exact .inr ⟨(a, ⟨fork, side⟩), ⟨⟨a, ha, ⟨fork, side⟩, ⟨hq, hvis⟩, rfl⟩, hout⟩, rfl, rfl, rfl⟩

/-- The pairs that cross some fork are those of accesses on opposite sides of a fork that can see
them. -/
theorem exists_crosses_underForks {m : Partitioning} {q : AccessId × AccessId} :
    (∃ found ∈ (Id.run
      (underForks s ops par isVisible (fun a q => pure (ruledOut a q)) accesses)).values,
        m.Crosses found q) ↔
      ∃ fork, isVisible fork = true ∧ ∃ a ∈ accesses, ∃ b ∈ accesses,
        (.trunk fork ∈ par.pointsOf s.program (ops.get a).inst ∧ ruledOut a (.trunk fork) = false) ∧
        (.branch fork ∈ par.pointsOf s.program (ops.get b).inst ∧
          ruledOut b (.branch fork) = false) ∧
        (m.isWrite a = true ∨ m.isWrite b = true) ∧ ordered a b = q := by
  constructor
  · rintro ⟨found, hfound, a, b, ha, hb, hw, rfl⟩
    obtain ⟨fork, hfork⟩ := IdMap.mem_values.1 hfound
    rw [← Option.getD_some (a := found) (b := []), ← hfork, ← TreeMap.getD_eq_getD_getElem?,
      mem_getD_underForks] at ha hb
    exact ⟨fork, ha.2.2.1, a, ha.1, b, hb.1, ⟨ha.2.1, ha.2.2.2⟩, ⟨hb.2.1, hb.2.2.2⟩, hw, rfl⟩
  · rintro ⟨fork, hvis, a, ha, b, hb, ⟨hta, hra⟩, ⟨htb, hrb⟩, hw, rfl⟩
    have hina := mem_getD_underForks.2 ⟨ha, hta, hvis, hra⟩
    have hinb := mem_getD_underForks.2 ⟨hb, htb, hvis, hrb⟩
    rw [TreeMap.getD_eq_getD_getElem?] at hina hinb
    cases hfork : (Id.run (underForks s ops par isVisible (fun a q => pure (ruledOut a q))
        accesses))[fork]? with
    | none => simp [hfork] at hina
    | some found =>
      simp only [hfork, Option.getD_some] at hina hinb
      exact ⟨found, IdMap.mem_values.2 ⟨fork, hfork⟩, a, b, hina, hinb, hw, rfl⟩

end Points

/-! ## the partitions before seeding -/

/-- The accesses that touch an object are among the collected ones. -/
theorem mem_ids_of_touching {s : Subject} {ops : Operations} {o : ObjId} {a : AccessId}
    (h : a ∈ (touching s ops).getD o ∅) : a ∈ ops.ids :=
  (mem_getD_touching.1 h).1

/-- A fresh partition has collected accesses only and no pairs, under the configured budget. -/
structure Fresh (s : Subject) (ops : Operations) (p : Partition) : Prop where
  accesses : ∀ a ∈ p.live, a ∈ ops.ids
  risky : p.risky = { budget := s.config.riskyPairBudget, all := s.config.allRiskyPairs }

theorem fresh_of_mem_parts {s : Subject} {ops : Operations} {p : Partition}
    (h : p ∈ (Partitioning.of s ops).parts) : Fresh s ops p := by
  -- Placing an object keeps fresh partitions fresh; a new one gets the accesses of the object.
  have hplace (parts : List Partition) (o : ObjId) (ids : List AccessId)
      (hids : ∀ a ∈ ids, a ∈ ops.ids) (hparts : ∀ p ∈ parts, Fresh s ops p) :
      ∀ p ∈ place s.config parts o (ids.map some), Fresh s ops p := by
    unfold place
    split
    · simp only [List.mem_map]
      rintro _ ⟨p, hp, rfl⟩
      split
      · exact ⟨(hparts p hp).accesses, (hparts p hp).risky⟩
      · exact hparts p hp
    · intro p hp
      rcases List.mem_append.1 hp with hp | hp
      · exact hparts p hp
      · obtain rfl := List.mem_singleton.1 hp
        exact ⟨fun a ha => hids a (by simpa [Partition.live] using ha), rfl⟩
  have hall (es : List (ObjId × IdSet)) (hes : ∀ e ∈ es, ∀ a ∈ e.2, a ∈ ops.ids)
      (parts : List Partition) (hparts : ∀ p ∈ parts, Fresh s ops p) :
      ∀ p ∈ es.foldl (fun parts (o, ids) => place s.config parts o (ids.toList.map some)) parts,
        Fresh s ops p := by
    induction es generalizing parts with
    | nil => exact hparts
    | cons e es ih =>
      refine ih (fun e he => hes e (List.mem_cons_of_mem _ he)) _ (hplace parts e.1 _ ?_ hparts)
      intro a ha
      exact hes e List.mem_cons_self a (TreeSet.mem_toList.1 ha)
  refine hall _ ?_ [] (by simp) p h
  rintro ⟨o, ids⟩ he a ha
  have := IdMap.getD_of_getElem? (b := ∅) (TreeMap.mem_toList_iff_getElem?_eq_some.1 he)
  exact mem_ids_of_touching (this ▸ ha)

theorem isWrite_of_iff {s : Subject} {ops : Operations} {a : AccessId} (ha : a ∈ ops.ids) :
    (Partitioning.of s ops).isWrite a = (ops.get a).isWrite := by
  rw [Bool.eq_iff_iff]
  simp [isWrite, Partitioning.of, ha]

theorem live_keepAccesses (p : Partition) (keep : AccessId → Bool) :
    (p.keepAccesses keep).live = p.live.filter keep := by
  unfold Partition.live Partition.keepAccesses
  induction p.accesses with
  | nil => rfl
  | cons a as ih =>
    cases a with
    | none => simpa using ih
    | some a => cases h : keep a <;> simpa [Option.filter, h] using ih

/-- Without effects, changing every partition in turn is changing every partition. -/
theorem mem_mapM_id {m : Partitioning} {f : Partition → Id Partition} {p : Partition} :
    p ∈ (Id.run (m.mapM f)).parts ↔ ∃ q ∈ m.parts, Id.run (f q) = p := by
  simp [Partitioning.mapM]

/-- A seeded partition is one of the partitions before, of the same objects, with fewer accesses,
and with the pairs of the forks that see it added. -/
theorem exists_of_mem_seedVisible {m : Partitioning} {s : Subject} {ops : Operations}
    {par : Parallelism} {x : Escape} {ruledOut : AccessId → Point → PartId → Bool} {p : Partition}
    (hp : p ∈ (Id.run ((m.pruneHidden x).seedVisible s ops par x
      fun a q p => pure (ruledOut a q p))).parts) :
    ∃ q ∈ m.parts, q.id = p.id ∧ q.objs = p.objs ∧ (∀ a ∈ p.live, a ∈ q.live) ∧
      p.risky = ((Id.run (underForks s ops par (x.visibleForks p.id).contains
        (fun a r => pure (ruledOut a r p.id)) p.live)).values.foldl
        (m.pruneHidden x).addFork q.risky) := by
  obtain ⟨p', hp', rfl⟩ := mem_mapM_id.1 hp
  obtain ⟨p'', hp'', rfl⟩ := List.mem_map.1 hp'
  obtain ⟨q, hq, rfl⟩ := List.mem_map.1 hp''
  refine ⟨q, hq, ?_, ?_, ?_, ?_⟩
  · split <;> rfl
  · split <;> rfl
  · intro a ha
    replace ha := (List.mem_filter.1 (live_keepAccesses _ _ ▸ ha)).1
    split at ha
    · exact ha
    · exact (List.mem_filter.1 (live_keepAccesses _ _ ▸ ha)).1
  · split <;> rfl

/-! ## seeding -/

/-- Whether two accesses of a partition may race: one of them writes, and a fork whose threads see
the partition has one on its trunk and the other on its branch, where neither is ruled out. -/
def MayRace (s : Subject) (ops : Operations) (par : Parallelism) (x : Escape)
    (ruledOut : AccessId → Point → PartId → Bool) (p : PartId) (a b : AccessId) : Prop :=
  let isAt (a : AccessId) (q : Point) : Prop :=
    q ∈ par.pointsOf s.program (ops.get a).inst ∧ ruledOut a q p = false
  ((ops.get a).isWrite = true ∨ (ops.get b).isWrite = true) ∧
    ∃ fork ∈ x.visibleForks p,
      isAt a (.trunk fork) ∧ isAt b (.branch fork) ∨ isAt a (.branch fork) ∧ isAt b (.trunk fork)

/-- Crossing a visible fork is what makes two live accesses risky. -/
theorem exists_crosses_iff_mayRace {s : Subject} {ops : Operations} {par : Parallelism} {x : Escape}
    {ruledOut : AccessId → Point → PartId → Bool} {p : PartId} {accesses : List AccessId}
    (hids : ∀ a ∈ accesses, a ∈ ops.ids) {a b : AccessId} :
    (∃ found ∈ (Id.run (underForks s ops par (x.visibleForks p).contains
        (fun a q => pure (ruledOut a q p)) accesses)).values,
      ((Partitioning.of s ops).pruneHidden x).Crosses found (a, b)) ↔
      a ≤ b ∧ a ∈ accesses ∧ b ∈ accesses ∧ MayRace s ops par x ruledOut p a b := by
  have hwrite (c : AccessId) (hc : c ∈ accesses) :
      ((Partitioning.of s ops).pruneHidden x).isWrite c = (ops.get c).isWrite :=
    isWrite_of_iff (s := s) (hids c hc)
  rw [exists_crosses_underForks]
  simp only [MayRace, List.contains_iff_mem]
  constructor
  · rintro ⟨fork, hfork, c, hc, d, hd, hct, hdb, hw, hcd⟩
    rw [hwrite c hc, hwrite d hd] at hw
    obtain ⟨hle, ⟨rfl, rfl⟩ | ⟨rfl, rfl⟩⟩ := ordered_eq_iff.1 hcd
    · exact ⟨hle, hc, hd, hw, fork, hfork, .inl ⟨hct, hdb⟩⟩
    · exact ⟨hle, hd, hc, hw.symm, fork, hfork, .inr ⟨hdb, hct⟩⟩
  · rintro ⟨hle, ha, hb, hw, fork, hfork, ⟨hat, hbb⟩ | ⟨hab, hbt⟩⟩
    · rw [← hwrite a ha, ← hwrite b hb] at hw
      exact ⟨fork, hfork, a, ha, b, hb, hat, hbb, hw, ordered_eq_iff.2 ⟨hle, .inl ⟨rfl, rfl⟩⟩⟩
    · rw [← hwrite a ha, ← hwrite b hb] at hw
      exact ⟨fork, hfork, b, hb, a, ha, hbt, hab, hw.symm, ordered_eq_iff.2 ⟨hle, .inr ⟨rfl, rfl⟩⟩⟩

section

variable {s : Subject} {ops : Operations} {par : Parallelism} {x : Escape}
  {ruledOut : AccessId → Point → PartId → Bool} {p : Partition}
  (hp : p ∈ (Id.run (((Partitioning.of s ops).pruneHidden x).seedVisible s ops par x
    fun a q p => pure (ruledOut a q p))).parts)

include hp

/-- The pairs that are offered to a partition are those that may race. -/
theorem gains_of_mem_seedVisible :
    Gains { budget := s.config.riskyPairBudget, all := s.config.allRiskyPairs } p.risky fun q =>
      q.1 ≤ q.2 ∧ q.1 ∈ p.live ∧ q.2 ∈ p.live ∧ MayRace s ops par x ruledOut p.id q.1 q.2 := by
  obtain ⟨q, hq, -, -, hlive, hrisky⟩ := exists_of_mem_seedVisible hp
  have hfresh := fresh_of_mem_parts hq
  have hgains := foldl_addFork_gains ((Partitioning.of s ops).pruneHidden x) q.risky
    (Id.run (underForks s ops par (x.visibleForks p.id).contains
      (fun a r => pure (ruledOut a r p.id)) p.live)).values
  rw [← hrisky, hfresh.risky] at hgains
  exact hgains.congr fun _ =>
    exists_crosses_iff_mayRace fun a ha => hfresh.accesses a (hlive a ha)

/-- A pair that is collected may race. -/
theorem mayRace_of_mem_risky {a b : AccessId} (h : (a, b) ∈ p.risky.pairs) :
    a ≤ b ∧ a ∈ p.live ∧ b ∈ p.live ∧ MayRace s ops par x ruledOut p.id a b :=
  ((gains_of_mem_seedVisible hp).sound _ h).resolve_left TreeSet.not_mem_emptyc

end

/-- **Seeding is exact.**  A partition that is not over budget, or any partition when all pairs are
wanted, holds exactly the pairs that may race.  Otherwise it holds some of them, no more than the
budget allows. -/
theorem seedVisible_exact (s : Subject) (ops : Operations) (par : Parallelism) (x : Escape)
    (ruledOut : AccessId → Point → PartId → Bool) (p : Partition)
    (hp : p ∈ (Id.run (((Partitioning.of s ops).pruneHidden x).seedVisible s ops par x
      fun a q p => pure (ruledOut a q p))).parts) :
    (s.config.allRiskyPairs = true ∨ p.risky.isOverBudget = false → ∀ a b,
      (a, b) ∈ p.risky.pairs ↔
        a ≤ b ∧ a ∈ p.live ∧ b ∈ p.live ∧ MayRace s ops par x ruledOut p.id a b) ∧
    (s.config.allRiskyPairs = false → p.risky.pairs.size ≤ s.config.riskyPairBudget ∧
      ∀ a b, (a, b) ∈ p.risky.pairs →
        a ≤ b ∧ a ∈ p.live ∧ b ∈ p.live ∧ MayRace s ops par x ruledOut p.id a b) := by
  have hgains := gains_of_mem_seedVisible hp
  constructor
  · intro hfree a b
    exact ⟨mayRace_of_mem_risky hp, fun h => hgains.complete hfree (a, b) (.inr h)⟩
  · intro hall
    exact ⟨hgains.bounded hall (Nat.zero_le _), fun _ _ => mayRace_of_mem_risky hp⟩

/-- A parallel loop whose body writes a global. -/
def loopOverGlobal : List Command :=
  [.global "g" 0, .declare "main" 0, .declare "body" 1, .declare "parallel_for" 2, .const 0,
    .body 1, .append 1 0 (.store 0 7), .append 1 0 (.ret none),
    .body 0, .append 0 1 (.call (.direct 2) [2, 0]), .append 0 1 (.ret none)]

/-- The write races with itself in another iteration. -/
theorem seedVisible_exact_loopOverGlobal : ∃ s par p,
    let ops := Operations.collect s
    let x := Escape.of s ops (.of s ops)
    Subject.prepare (Builder.ofScript loopOverGlobal) {} = .ok s ∧
    Parallelism.analyze s ops = .ok par ∧
    p ∈ (Id.run (((Partitioning.of s ops).pruneHidden x).seedVisible s ops par x
      fun _ _ _ => pure false)).parts ∧
    p.risky.isOverBudget = false ∧ (0, 0) ∈ p.risky.pairs ∧
    MayRace s ops par x (fun _ _ _ => false) p.id 0 0 := by
  have hrun : ((do
      let s ← Subject.prepare (Builder.ofScript loopOverGlobal) {}
      let ops := Operations.collect s
      let par ← Parallelism.analyze s ops
      let x := Escape.of s ops (.of s ops)
      return (Id.run (((Partitioning.of s ops).pruneHidden x).seedVisible s ops par x
        fun _ _ _ => pure false)).parts.any fun p =>
          !p.risky.isOverBudget && p.risky.pairs.contains (0, 0)) : Except Error Bool).toOption =
      some true := by
    decide +kernel
  cases hs : Subject.prepare (Builder.ofScript loopOverGlobal) {} with
  | error e => simp [hs, Except.toOption, bind, Except.bind] at hrun
  | ok s =>
    cases hpar : Parallelism.analyze s (Operations.collect s) with
    | error e => simp [hs, hpar, Except.toOption, bind, Except.bind] at hrun
    | ok par =>
      simp only [hs, hpar, Except.toOption, bind, Except.bind, pure, Except.pure,
        Option.some.injEq, List.any_eq_true, Bool.and_eq_true, Bool.not_eq_true'] at hrun
      obtain ⟨p, hp, hbudget, hpair⟩ := hrun
      refine ⟨s, par, p, rfl, hpar, hp, hbudget, hpair, ?_⟩
      have hexact := (seedVisible_exact s _ par _ (fun _ _ _ => false) p hp).1 (.inr hbudget)
      exact ((hexact 0 0).1 hpair).2.2.2

end Partitioning

end DataRace
