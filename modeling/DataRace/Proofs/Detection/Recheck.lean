import DataRace.Proofs.Detection.Budget
import DataRace.Proofs.Flow.Loop
import DataRace.Proofs.Guard.Meaning
import DataRace.Proofs.Parallel.Index

/-!
# DataRace.Proofs.Detection.Recheck

Asking again about the pairs of a report.

A recheck puts the questions of a detection to two instructions, in the order
they are named.  All questions but one do not depend on that order; the one about
heap instances does when both instructions are on the branch of the spawn that
gets the object (`Subject.differentInstances_comm`).  The guards that a
recheck learns along the way make no difference outside recursion, so each pair
gets an answer of its own (`Recheck.run_eq`).

* `Recheck.confirms` — the answer to one pair;
* `Partitioning.Keeps` — a pair that is left, followed back through the filters;
* `Recheck.run_confirms` — what is reported is confirmed.
-/

namespace DataRace

open Std

/-! ## questions that do not depend on the order -/

theorem PointsTo.mustAlias_comm (t : PointsTo) (a b : ValueId) :
    t.mustAlias a b = t.mustAlias b a := by
  rw [mustAlias, mustAlias]
  cases ha : t.only? a with
  | none => cases t.only? b <;> simp
  | some o =>
    cases hb : t.only? b with
    | none => simp
    | some o' =>
      by_cases ho : o = o'
      · subst ho
        simp
      · simp [beq_eq_false_iff_ne.2 ho, beq_eq_false_iff_ne.2 (Ne.symm ho)]

theorem Locksets.haveCommon_comm (s : Subject) (l : Locksets) (i j : InstId) :
    haveCommon s l i j = haveCommon s l j i := by
  rw [haveCommon, haveCommon]
  cases l.of? i with
  | none => cases l.of? j <;> rfl
  | some a =>
    cases l.of? j with
    | none => rfl
    | some b =>
      rw [Bool.eq_iff_iff]
      simp only [IdSet.any_iff]
      constructor
      · rintro ⟨x, hx, y, hy, h⟩
        exact ⟨y, hy, x, hx, s.pointers.mustAlias_comm x y ▸ h⟩
      · rintro ⟨x, hx, y, hy, h⟩
        exact ⟨y, hy, x, hx, s.pointers.mustAlias_comm x y ▸ h⟩

theorem Barriers.separates_comm (b : Barriers) (p : Program) (i j : InstId) :
    b.separates p i j = b.separates p j i := by
  rw [separates, separates]
  congr 1
  funext _ x
  simp only [BarrierSides.separates]
  cases x.before.covers p i <;> cases x.before.covers p j <;> simp [Bool.and_comm]

namespace Parallelism

variable {m : Parallelism} {p : Program} {i j x : Nat}

theorem mem_mayRunParallel_comm (hm : m.Indexed p) :
    x ∈ m.mayRunParallel p i j ↔ x ∈ m.mayRunParallel p j i := by
  rw [mem_mayRunParallel hm, mem_mayRunParallel hm, opposed_comm]

theorem keptApart_comm : m.keptApart p x i j = m.keptApart p x j i := by
  unfold keptApart
  simp only [Bool.and_comm]

/-- Joins keep two instructions apart under each fork for itself. -/
theorem joinApart_iff (hm : m.Indexed p) : m.joinApart p i j = true ↔
    i ≠ j ∧ ∀ x, m.Opposed p x i j → m.keptApart p x i j = .ok true := by
  rw [joinApart, Bool.and_eq_true, bne_iff_ne, List.all_eq_true]
  refine and_congr_right fun _ => ⟨fun hall x hx => ?_, fun hall q hq => ?_⟩
  · obtain ⟨q, hq, rfl⟩ := (mem_parallelPoints hm).2 hx
    have hkept := hall q hq
    dsimp only at hkept
    split at hkept
    · next heq => rw [heq, hkept]
    · cases hkept
  · have hkept := hall q.1.spawn ((mem_parallelPoints hm).1 ⟨q, hq, rfl⟩)
    simp [hkept]

theorem joinApart_comm (hm : m.Indexed p) : m.joinApart p i j = m.joinApart p j i := by
  rw [Bool.eq_iff_iff, joinApart_iff hm, joinApart_iff hm]
  simp only [opposed_comm (i := i), keptApart_comm (i := i), ne_comm (a := i)]

end Parallelism

/-! ## guards -/

theorem Subject.splits_comm (s : Subject) (ptr : ValueId) (i j : InstId) :
    s.splits ptr i j = s.splits ptr j i := by
  unfold splits
  congr 1
  funext site
  exact bne_comm

namespace Exclusion

variable {s : Subject} {ops : Operations} {par : Parallelism} {m : Partitioning}

theorem partners_comm (p : Partition) (i j : InstId) : p.partners ops i j = p.partners ops j i := by
  unfold Partition.partners
  congr 1
  funext q
  simp only [Bool.or_comm]

theorem mayDiffer_comm (ptr : ValueId) (i j : InstId) :
    m.mayDiffer s ops ptr i j = m.mayDiffer s ops ptr j i := by
  simp only [Partitioning.mayDiffer, s.splits_comm ptr i j, partners_comm _ i j]

theorem contradicts_comm (g h : GlobalGuard) :
    contradicts s ops m g h = contradicts s ops m h g := by
  rw [contradicts, contradicts, GlobalTest.excludes_comm, mayDiffer_comm]
  cases hex : h.fact.excludes g.fact with
  | false => rfl
  | true =>
    have hptr : h.fact.ptr = g.fact.ptr := by
      simp only [GlobalTest.excludes, Bool.and_eq_true, beq_iff_eq] at hex
      exact hex.1.1
    rw [hptr]

theorem excludeBy_comm (gs hs : List GlobalGuard) :
    excludeBy s ops m gs hs = excludeBy s ops m hs gs := by
  have hiff (gs hs : List GlobalGuard) : excludeBy s ops m gs hs = true ↔
      ∃ g ∈ gs, ∃ h ∈ hs, contradicts s ops m g h = true := by
    simp only [excludeBy, List.any_flatMap, List.any_map, List.any_eq_true, Function.comp]
  rw [Bool.eq_iff_iff, hiff, hiff]
  constructor
  · rintro ⟨g, hg, h, hh, hc⟩
    exact ⟨h, hh, g, hg, contradicts_comm g h ▸ hc⟩
  · rintro ⟨g, hg, h, hh, hc⟩
    exact ⟨h, hh, g, hg, contradicts_comm g h ▸ hc⟩

theorem apartBy_comm (hm : par.Indexed s.program) (i j : InstId) :
    apartBy s ops par m i j = apartBy s ops par m j i := by
  by_cases hij : i = j
  · rw [hij]
  · have hfork (fork : InstId) : forkExcluded s ops m i j fork = forkExcluded s ops m j i fork := by
      simp only [forkExcluded, bne_iff_ne.2 hij, bne_iff_ne.2 (Ne.symm hij), Bool.true_and,
        Bool.or_comm]
    rw [Bool.eq_iff_iff]
    simp only [apartBy, bne_iff_ne.2 hij, bne_iff_ne.2 (Ne.symm hij), Bool.true_and,
      Bool.or_eq_true, excludeBy_comm (guardsBy s i), List.all_eq_true, TreeSet.mem_toList, hfork,
      Parallelism.mem_mayRunParallel_comm hm (i := i)]

end Exclusion

/-! ## heap instances -/

namespace Subject

/-- The one spawn that gets an object in the loop of its allocation starts both instructions. -/
def HandedToBoth (s : Subject) (par : Parallelism) (x : Escape) (o : ObjId) (i j : InstId) : Prop :=
  ∃ alloc spawn, s.heapAllocation? o = some alloc ∧ (HeapFlow.of s x alloc).spawn = some spawn ∧
    (par.codeOf spawn).branch.covers s.program i = true ∧
    (par.codeOf spawn).branch.covers s.program j = true

theorem HandedToBoth.symm {s : Subject} {par : Parallelism} {x : Escape} {o : ObjId} {i j : InstId}
    (h : s.HandedToBoth par x o i j) : s.HandedToBoth par x o j i := by
  obtain ⟨alloc, spawn, halloc, hspawn, hi, hj⟩ := h
  exact ⟨alloc, spawn, halloc, hspawn, hj, hi⟩

/-- If both instructions are on the branch, the second one is taken to be on the trunk. -/
theorem differentInstances_comm {s : Subject} {par : Parallelism} {x : Escape} {o : ObjId}
    {i j : InstId} (h : i ≠ j → ¬s.HandedToBoth par x o i j) :
    s.differentInstances par x o i j = s.differentInstances par x o j i := by
  by_cases hij : i = j
  · rw [hij]
  · unfold differentInstances
    cases halloc : s.heapAllocation? o with
    | none => rfl
    | some alloc =>
      cases hspawn : (HeapFlow.of s x alloc).spawn with
      | none => simp only [hspawn]
      | some spawn =>
        simp only [hspawn]
        cases hi : (par.codeOf spawn).branch.covers s.program i with
        | false => cases hj : (par.codeOf spawn).branch.covers s.program j <;> simp
        | true =>
          cases hj : (par.codeOf spawn).branch.covers s.program j with
          | false => simp
          | true => exact absurd ⟨alloc, spawn, halloc, hspawn, hi, hj⟩ (h hij)

end Subject

/-- What a detection without alias refinement started with. -/
theorem Screening.start_spec {s : Subject} {x : Screening}
    (hmode : s.config.contextMode = .disabled)
    (h : start s = .ok x) : x.ops = .collect s ∧ Parallelism.analyze s (.collect s) = .ok x.par ∧
      x.escape = Escape.of s x.ops (.of s x.ops) ∧ x.aliases = none ∧
      x.parts = Id.run (((Partitioning.of s x.ops).pruneHidden x.escape).seedVisible s x.ops x.par
        x.escape fun _ _ _ => pure false) := by
  obtain ⟨par, hpar, -⟩ := exists_of_bind_eq_ok h
  obtain ⟨y, hy, hops, hpar', hescape, haliases, hparts⟩ := start_of_disabled hmode hpar
  obtain rfl : y = x := Except.ok.inj (hy.symm.trans h)
  refine ⟨hops, hpar'.symm ▸ hpar, ?_, haliases, ?_⟩
  · rw [hops]
    exact hescape
  · rw [hops, hpar', hescape]
    exact hparts

/-! ## the answer to one pair -/

namespace Recheck

variable {s : Subject} {x : Screening} {all : Partitioning} {rank : FuncId → Nat} {i j : InstId}

/-- What was learnt so far is right, and there is no alias refinement. -/
structure Settled (s : Subject) (r : Recheck) : Prop where
  exclusion : Exclusion.Sound s r.exclusion
  aliases : r.aliases = none

/-- A question is answered, and in the same way whatever was asked before. -/
def Answers {α : Type} (s : Subject) (q : Asking α) (a : α) : Prop :=
  ∀ r, Settled s r → ∃ r', q.run r = .ok (a, r') ∧ Settled s r'

namespace Answers

variable {α β : Type}

theorem pure (a : α) : Answers s (pure a) a := fun r hr => ⟨r, rfl, hr⟩

theorem bind {q : Asking α} {a : α} {f : α → Asking β} {b : β} (hq : Answers s q a)
    (hf : Answers s (f a) b) : Answers s (q >>= f) b := by
  intro r hr
  obtain ⟨r', hrun, hr'⟩ := hq r hr
  obtain ⟨r'', hrun', hr''⟩ := hf r' hr'
  refine ⟨r'', ?_, hr''⟩
  rw [StateT.run_bind, hrun]
  exact hrun'

theorem mapM {f : α → Asking β} {g : α → β} (hf : ∀ a, Answers s (f a) (g a)) (as : List α) :
    Answers s (as.mapM f) (as.map g) := by
  induction as with
  | nil =>
    rw [List.mapM_nil]
    exact pure []
  | cons a as ih =>
    rw [List.mapM_cons]
    exact (hf a).bind (ih.bind (pure _))

end Answers

theorem answers_exclude (hl : s.Layered rank) (i j : InstId) :
    Answers s (exclude s x i j) (Exclusion.apartBy s x.ops x.par x.parts i j) := by
  intro r hr
  have hreturns : Returns (Exclusion.Sound s) (Exclusion.Sound s)
      (Exclusion.apart s x.ops x.par x.parts i j) (Exclusion.apartBy s x.ops x.par x.parts i j) :=
    Exclusion.returns_apart hl i j
  obtain ⟨hvalue, hsound⟩ := hreturns r.exclusion hr.exclusion
  refine ⟨{ r with exclusion := _ }, ?_, ⟨hsound, hr.aliases⟩⟩
  rw [← hvalue]
  rfl

theorem answers_neverMeet (a b : Access) : Answers s (neverMeet s x a b) false := by
  intro r hr
  refine ⟨r, ?_, hr⟩
  simp only [neverMeet, StateT.run, hr.aliases]

/-- Two accesses to a partition may be to one instance of its object. -/
def mayMeet (s : Subject) (x : Screening) (e : Partition × AccessId × AccessId) : Bool :=
  !(single? e.1.objs.toList).any fun o =>
    s.differentInstances x.par x.escape o (x.ops.get e.2.1).inst (x.ops.get e.2.2).inst

theorem answers_anyMeets (es : List (Partition × AccessId × AccessId)) :
    Answers s (anyMeets s x es) (es.any (mayMeet s x)) := by
  induction es with
  | nil => exact .pure false
  | cons e es ih =>
    rw [anyMeets, List.any_cons]
    cases hmeets : mayMeet s x e with
    | false =>
      rw [mayMeet, Bool.not_eq_false'] at hmeets
      simpa [hmeets] using ih
    | true =>
      rw [mayMeet, Bool.not_eq_true'] at hmeets
      simpa [hmeets] using (answers_neverMeet _ _).bind (.pure true)

/-- The accesses of two instructions to one partition with a write among them, if a fork that makes
the instructions parallel can see it. -/
def candidates (s : Subject) (x : Screening) (all : Partitioning) (i j : InstId) :
    List (Partition × AccessId × AccessId) :=
  (accessesOf x all i).flatMap fun e =>
    ((accessesOf x all j).filter fun f => (all.isWrite e.2 || all.isWrite f.2) && e.1.id = f.1.id &&
      (x.par.mayRunParallel s.program i j).any (x.escape.escapesTo e.1.id)).map fun f =>
        (e.1, e.2, f.2)

/-- Whether two instructions may race, without regard to what was asked before. -/
def confirms (s : Subject) (x : Screening) (all : Partitioning) (i j : InstId) : Bool :=
  !(x.par.mayRunParallel s.program i j).isEmpty && !x.par.joinApart s.program i j &&
    !Exclusion.apartBy s x.ops x.par x.parts i j &&
    !(Barriers.analyze s).separates s.program i j && !(Locksets.analyze s).haveCommon s i j &&
    (candidates s x all i j).any (mayMeet s x)

theorem answers_mayRace (hl : s.Layered rank) (q : InstId × InstId) :
    Answers s (mayRace s x all (Locksets.analyze s) (Barriers.analyze s) q.1 q.2)
      (confirms s x all q.1 q.2) := by
  obtain ⟨i, j⟩ := q
  have hcandidates := answers_anyMeets (s := s) (x := x) (candidates s x all i j)
  unfold mayRace confirms
  cases hforks : (x.par.mayRunParallel s.program i j).isEmpty with
  | true => simpa [hforks] using Answers.pure false
  | false =>
    cases hjoin : x.par.joinApart s.program i j with
    | true => simpa [hforks, hjoin] using Answers.pure false
    | false =>
      simp only [hforks, Bool.or_false, Bool.false_eq_true, if_false]
      refine (answers_exclude hl i j).bind ?_
      cases hguards : Exclusion.apartBy s x.ops x.par x.parts i j with
      | true => simpa using Answers.pure false
      | false =>
        cases hbarriers : (Barriers.analyze s).separates s.program i j with
        | true => simpa [hbarriers] using Answers.pure false
        | false =>
          cases hlocks : (Locksets.analyze s).haveCommon s i j with
          | true => simpa [hbarriers, hlocks] using Answers.pure false
          | false =>
            simp only [Bool.or_false, Bool.false_eq_true, if_false, Bool.not_false, Bool.true_and]
            exact hcandidates

/-- A loop whose steps all go on as they came leaves the state as it is. -/
theorem forIn_of_yield {α β : Type} {xs : List α} {b : β} {f : α → β → Except Error (ForInStep β)}
    (h : ∀ a ∈ xs, f a b = .ok (.yield b)) : forIn xs b f = .ok b := by
  induction xs with
  | nil => rfl
  | cons a xs ih =>
    rw [List.forIn_cons, h a List.mem_cons_self]
    exact ih fun a ha => h a (List.mem_cons_of_mem _ ha)

/-- What a recheck asks about: what a detection starts with, with the joins of other threads. -/
def scope (s : Subject) (x : Screening) : Screening := { x with par := x.par.refine s }

/-- **Each pair gets an answer of its own**, whatever other pairs are asked about before. -/
theorem run_eq (hmode : s.config.contextMode = .disabled) (hl : s.Layered rank)
    (hx : Screening.start s = .ok x) {pairs : List (InstId × InstId)}
    (hknown : ∀ q ∈ pairs, q.1 < s.program.insts.size ∧ q.2 < s.program.insts.size) :
    run s pairs = .ok (pairs.map fun q => confirms s (scope s x) (.of s x.ops) q.1 q.2) := by
  obtain ⟨-, -, -, -, hparts⟩ := Screening.start_spec hmode hx
  have hscope : scope s x = { x with
      par := x.par.refine s
      parts := Id.run (((Partitioning.of s x.ops).pruneHidden x.escape).seedVisible s x.ops x.par
        x.escape fun _ _ _ => false) } :=
    congrArg (fun parts : Partitioning => { x with par := x.par.refine s, parts }) hparts
  have hsettled : Settled s { aliases := AliasRefinement.start s.config s.config.emptyLog } :=
    ⟨GuardTable.sound_new s _ _, if_pos hmode⟩
  have hanswers (q : InstId × InstId) : Answers s
      (mayRace s (scope s x) (.of s x.ops) (Locksets.analyze s) (Barriers.analyze s) q.1 q.2)
      (confirms s (scope s x) (.of s x.ops) q.1 q.2) := answers_mayRace hl q
  obtain ⟨r, hrun, -⟩ := Answers.mapM hanswers pairs _ hsettled
  unfold run
  rw [forIn_of_yield]
  · simp only [bind, Except.bind, hx]
    rw [← hscope, hrun]
    rfl
  · intro q hq
    obtain ⟨hi, hj⟩ := hknown q hq
    dsimp only
    rw [forIn_of_yield]
    · rfl
    · intro k hk
      have hlt : ¬k ≥ s.program.insts.size := by
        rcases List.mem_pair.1 hk with rfl | rfl
        · exact Nat.not_le.2 hi
        · exact Nat.not_le.2 hj
      rw [if_neg hlt]
      rfl

end Recheck

/-! ## pairs that are left -/

namespace Partitioning

variable {m n : Partitioning} {part : PartId} {objs : IdSet} {a b : AccessId}

/-- A pair is left in a partition that is within its budget. -/
def Keeps (m : Partitioning) (part : PartId) (objs : IdSet) (a b : AccessId) : Prop :=
  ∃ p ∈ m.parts, p.id = part ∧ p.objs = objs ∧ p.risky.isOverBudget = false ∧ (a, b) ∈ p.risky.pairs

/-- A pair that a filter leaves was there before, and is not apart. -/
theorem Keeps.of_without {apart : PartId → AccessId → AccessId → Bool}
    (h : (m.map (·.without apart)).Keeps part objs a b) :
    m.Keeps part objs a b ∧ apart part a b = false := by
  obtain ⟨_, hwithout, rfl, rfl, hover, hab⟩ := h
  obtain ⟨p, hp, rfl⟩ := List.mem_map.1 hwithout
  have hnarrow := p.narrowed_without apart
  rw [hnarrow.isOverBudget_eq] at hover
  obtain ⟨hab, happart⟩ := (Partition.mem_without hover).1 hab
  rw [hnarrow.id_eq, hnarrow.objs_eq]
  exact ⟨⟨p, hp, rfl, rfl, hover, hab⟩, happart⟩

/-- A partition is found by its number. -/
theorem Keeps.get? (h : m.Keeps part objs a b) (hids : (m.parts.map (·.id)).Nodup) :
    (m.get? part).map (·.objs) = some objs := by
  obtain ⟨p, hp, rfl, rfl, -⟩ := h
  have hfind : m.parts.find? (·.id = p.id) = some p := by
    obtain ⟨before, after, heq⟩ := List.append_of_mem hp
    rw [heq, List.map_append, List.map_cons, List.nodup_append] at hids
    rw [heq, List.find?_append, List.find?_cons_of_pos (by simp), List.find?_eq_none.2]
    · rfl
    · intro q hq hid
      exact hids.2.2 q.id (List.mem_map_of_mem hq) p.id List.mem_cons_self (of_decide_eq_true hid)
  rw [Partitioning.get?, hfind, Option.map_some]

theorem Narrowed.map_id {kept : AccessId → AccessId → Prop} (h : m.Narrowed kept n) :
    n.parts.map (·.id) = m.parts.map (·.id) := by
  have hids : List.Forall₂ Eq (m.parts.map (·.id)) (n.parts.map (·.id)) := by
    rw [List.forall₂_map_left_iff, List.forall₂_map_right_iff]
    exact h.parts.imp fun _ _ hpq => hpq.id_eq.symm
  rw [List.forall₂_eq_eq_eq] at hids
  exact hids.symm

/-- Filters may be taken for a larger budget. -/
theorem Shrinks.within (h : m.Shrinks n)
    (hlive : ∀ p ∈ m.parts, ∀ q ∈ p.risky.pairs, q.1 ∈ p.live ∧ q.2 ∈ p.live) : m.Within n := by
  refine ⟨h.writes, ((List.forall₂_and_left _ _).2 ⟨hlive, h.parts⟩).imp ?_⟩
  rintro p q ⟨hlive, hpq⟩
  refine ⟨hpq.id_eq, hpq.objs_eq, hpq.accesses_eq, (hpq.isOverBudget_eq ▸ ·),
    fun _ => hpq.subset, ?_⟩
  rw [Partition.live, hpq.accesses_eq]
  exact fun r hr => hlive r (hpq.subset r hr)

theorem map_id_seedVisible {s : Subject} {ops : Operations} {par : Parallelism} {x : Escape}
    (ruledOut : AccessId → Point → PartId → Bool) :
    (Id.run ((m.pruneHidden x).seedVisible s ops par x fun a q p =>
      pure (ruledOut a q p))).parts.map (·.id) =
      m.parts.map (·.id) := by
  rw [seedVisible_pure, pruneHidden, pruneSequential, map, map, map]
  simp only [List.map_map]
  refine List.map_congr_left fun p _ => ?_
  by_cases hp : x.escapes p.id = true <;> simp [Partition.keepAccesses, hp]

end Partitioning

namespace Screening

variable {s : Subject} {x : Screening} {part : PartId} {objs : IdSet} {a b : AccessId}

theorem keeps_of_filter {apart : InstId → InstId → Bool}
    (h : (x.filter apart).parts.Keeps part objs a b) :
    x.parts.Keeps part objs a b ∧ apart (x.ops.get a).inst (x.ops.get b).inst = false := by
  rw [filter_parts] at h
  exact h.of_without

theorem keeps_of_filterHeap (hids : (x.parts.parts.map (·.id)).Nodup)
    (h : (x.filterHeap s).parts.Keeps part objs a b) : x.parts.Keeps part objs a b ∧
      (single? objs.toList).any (fun o => s.differentInstances x.par x.escape o
        (x.ops.get a).inst (x.ops.get b).inst) = false := by
  rw [filterHeap_parts] at h
  obtain ⟨h, hheap⟩ := h.of_without
  refine ⟨h, ?_⟩
  obtain ⟨p, hp, rfl⟩ := Option.map_eq_some_iff.1 (h.get? hids)
  rwa [hp, Option.bind_some] at hheap

theorem keeps_of_filterGuards {rank : FuncId → Nat} (hl : s.Layered rank)
    (h : (x.filterGuards s).parts.Keeps part objs a b) : x.parts.Keeps part objs a b ∧
      Exclusion.apartBy s x.ops x.par x.parts (x.ops.get a).inst (x.ops.get b).inst = false := by
  rw [filterGuards_parts hl] at h
  exact h.of_without

/-- Two accesses pass all filters, one after the other. -/
structure Passes (s : Subject) (x : Screening) (part : PartId) (objs : IdSet) (a b : AccessId) :
    Prop where
  shared : ∃ p ∈ (Partitioning.of s x.ops).parts, p.id = part ∧ p.objs = objs ∧
    a ∈ p.live ∧ b ∈ p.live
  seeded : Partitioning.MayRace s x.ops x.par x.escape (fun _ _ _ => false) part a b
  locks : (Locksets.analyze s).haveCommon s (x.ops.get a).inst (x.ops.get b).inst = false
  barriers : (Barriers.analyze s).separates s.program (x.ops.get a).inst (x.ops.get b).inst = false
  heap : (single? objs.toList).any (fun o => s.differentInstances x.par x.escape o
    (x.ops.get a).inst (x.ops.get b).inst) = false
  joins : (x.par.refine s).joinApart s.program (x.ops.get a).inst (x.ops.get b).inst = false
  guards : Exclusion.apartBy s x.ops x.par x.parts (x.ops.get a).inst (x.ops.get b).inst = false

section

variable (hmode : s.config.contextMode = .disabled) (hx : start s = .ok x)

include hmode hx

theorem nodup_ids_start : (x.parts.parts.map (·.id)).Nodup := by
  obtain ⟨-, -, -, -, hparts⟩ := start_spec hmode hx
  rw [hparts, Partitioning.map_id_seedVisible, Partitioning.map_id_of]
  exact List.nodup_range'

/-- A pair that is collected is of live accesses that may race. -/
theorem mayRace_of_mem_start {p : Partition} (hp : p ∈ x.parts.parts)
    (hab : (a, b) ∈ p.risky.pairs) :
    a ∈ p.live ∧ b ∈ p.live ∧
      Partitioning.MayRace s x.ops x.par x.escape (fun _ _ _ => false) p.id a b := by
  obtain ⟨-, -, -, -, hparts⟩ := start_spec hmode hx
  rw [hparts] at hp
  have hrace : a ≤ b ∧ a ∈ p.live ∧ b ∈ p.live ∧
      Partitioning.MayRace s x.ops x.par x.escape (fun _ _ _ => false) p.id a b :=
    Partitioning.mayRace_of_mem_risky hp hab
  exact hrace.2

/-- A partition that pairs are collected for is one of the partitions, with fewer accesses. -/
theorem exists_of_mem_start {p : Partition} (hp : p ∈ x.parts.parts) :
    ∃ q ∈ (Partitioning.of s x.ops).parts, q.id = p.id ∧ q.objs = p.objs ∧
      ∀ a ∈ p.live, a ∈ q.live := by
  obtain ⟨-, -, -, -, hparts⟩ := start_spec hmode hx
  rw [hparts] at hp
  obtain ⟨q, hq, hid, hobjs, hlive, -⟩ :=
    @Partitioning.exists_of_mem_seedVisible _ _ _ _ _ (fun _ _ _ => false) _ hp
  exact ⟨q, hq, hid, hobjs, hlive⟩

/-- What is left in the end passed all filters. -/
theorem passes_of_keeps {rank : FuncId → Nat} (hl : s.Layered rank) {t : Phases}
    (ht : Phases.run s = .ok t) (h : t.csRefinement.parts.Keeps part objs a b) :
    t.csRefinement.ops = x.ops ∧ Passes s x part objs a b := by
  obtain ⟨-, -, -, haliases, -⟩ := start_spec hmode hx
  obtain ⟨_, hx', ht⟩ := exists_of_bind_eq_ok ht
  obtain rfl := Except.ok.inj (hx.symm.trans hx')
  obtain ⟨y, hy, ht⟩ := exists_of_bind_eq_ok ht
  obtain rfl := Except.ok.inj ht
  rw [filterAliases_of_none s (by exact haliases), Except.ok.injEq] at hy
  subst hy
  refine ⟨rfl, ?_⟩
  -- the screening before each of the filters, the last one first
  let locked := x.filterLocks s (Locksets.analyze s)
  let barred := locked.filterBarriers s
  let refined := { barred with
    par := x.par.refine s, log := (x.par.refine s).noteRefinement s barred.log }
  let apart := refined.filterHeap s
  let joined := apart.filter ((x.par.refine s).joinApart s.program)
  have hlocked : x.parts.Shrinks locked.parts := (narrows_filterLocks x s _).parts.shrinks
  have hbarred : x.parts.Shrinks barred.parts :=
    Trans.trans hlocked (narrows_filterBarriers locked s).parts.shrinks
  have hjoined : x.parts.Shrinks joined.parts := Trans.trans
    (Trans.trans hbarred (narrowed_filterHeap refined s).shrinks) (narrowed_filter apart _).shrinks
  have hids : (refined.parts.parts.map (·.id)).Nodup := hbarred.map_id ▸ nodup_ids_start hmode hx
  obtain ⟨h, hguards⟩ := keeps_of_filterGuards (x := joined) hl h
  obtain ⟨h, hjoins⟩ := keeps_of_filter h
  obtain ⟨h, hheap⟩ := keeps_of_filterHeap hids h
  obtain ⟨h, hbarriers⟩ := keeps_of_filter (x := locked) h
  obtain ⟨h, hlocks⟩ := keeps_of_filter (x := { x with log := Locksets.note s x.log }) h
  obtain ⟨p, hp, rfl, rfl, -, hab⟩ := h
  obtain ⟨ha, hb, hrace⟩ := mayRace_of_mem_start hmode hx hp hab
  obtain ⟨q, hq, hid, hobjs, hlive⟩ := exists_of_mem_start hmode hx hp
  refine ⟨⟨q, hq, hid, hobjs, hlive a ha, hlive b hb⟩, hrace, hlocks, hbarriers, hheap, hjoins, ?_⟩
  -- A recheck looks at the pairs that were collected, a detection at those that are left.
  refine Bool.eq_false_iff.2 fun hap => ?_
  have hwithin := hjoined.within fun p hp q hq =>
    (mayRace_of_mem_start hmode hx hp hq).imp_right And.left
  have hgone := Exclusion.apartBy_of_within hwithin hap
  rw [show Exclusion.apartBy s x.ops x.par joined.parts (x.ops.get a).inst (x.ops.get b).inst =
    false from hguards] at hgone
  cases hgone

end

/-- The order does not matter, unless one spawn gets the object and starts both instructions. -/
theorem Passes.symm (hm : x.par.Indexed s.program) (h : Passes s x part objs a b)
    (hheap : ∀ o, objs.toList = [o] → (x.ops.get a).inst ≠ (x.ops.get b).inst →
      ¬s.HandedToBoth x.par x.escape o (x.ops.get a).inst (x.ops.get b).inst) :
    Passes s x part objs b a := by
  obtain ⟨⟨p, hp, hid, hobjs, ha, hb⟩, ⟨hwrite, fork, hfork, hsides⟩, hlocks, hbarriers,
    hinst, hjoins, hguards⟩ := h
  refine ⟨⟨p, hp, hid, hobjs, hb, ha⟩,
    ⟨hwrite.symm, fork, hfork, hsides.symm.imp And.symm And.symm⟩, ?_, ?_, ?_, ?_, ?_⟩
  · rw [Locksets.haveCommon_comm, hlocks]
  · rw [Barriers.separates_comm, hbarriers]
  · rw [← hinst]
    cases hone : single? objs.toList with
    | none => rfl
    | some o => exact (s.differentInstances_comm (hheap o (single?_eq_some_iff.1 hone))).symm
  · rw [Parallelism.joinApart_comm (hm.refine s), hjoins]
  · rw [Exclusion.apartBy_comm hm, hguards]

/-- What passes all filters is confirmed. -/
theorem Passes.confirms (hm : x.par.Indexed s.program) (h : Passes s x part objs a b) :
    Recheck.confirms s (Recheck.scope s x) (.of s x.ops) (x.ops.get a).inst
    (x.ops.get b).inst = true := by
  obtain ⟨p, hp, rfl, rfl, ha, hb⟩ := h.shared
  obtain ⟨hwrite, fork, hfork, hsides⟩ := h.seeded
  have hids := (Partitioning.fresh_of_mem_parts hp).accesses
  rw [← Partitioning.isWrite_of_iff (s := s) (hids a ha),
    ← Partitioning.isWrite_of_iff (s := s) (hids b hb)] at hwrite
  have hparallel : fork ∈ x.par.mayRunParallel s.program (x.ops.get a).inst (x.ops.get b).inst := by
    rw [Parallelism.mem_mayRunParallel hm, Parallelism.Opposed, ← Parallelism.mem_pointsOf_trunk,
      ← Parallelism.mem_pointsOf_trunk, ← Parallelism.mem_pointsOf_branch hm,
      ← Parallelism.mem_pointsOf_branch hm]
    exact hsides.imp (fun h => ⟨h.1.1, h.2.1⟩) fun h => ⟨h.1.1, h.2.1⟩
  have hmeets : (Recheck.candidates s (Recheck.scope s x) (.of s x.ops) (x.ops.get a).inst
      (x.ops.get b).inst).any (Recheck.mayMeet s (Recheck.scope s x)) = true := by
    have haccess {c : AccessId} (hc : c ∈ p.live) : (p, c) ∈
        Recheck.accessesOf (Recheck.scope s x) (.of s x.ops) (x.ops.get c).inst :=
      List.mem_flatMap.2
      ⟨p, hp, List.mem_map_of_mem (List.mem_filter.2 ⟨hc, by simp [Recheck.scope]⟩)⟩
    refine List.any_eq_true.2 ⟨(p, a, b), List.mem_flatMap.2 ⟨(p, a), haccess ha, ?_⟩, ?_⟩
    · refine List.mem_map.2 ⟨(p, b), List.mem_filter.2 ⟨haccess hb, ?_⟩, rfl⟩
      simp only [Bool.and_eq_true, Bool.or_eq_true, decide_true, and_true]
      exact ⟨hwrite, IdSet.any_iff.2 ⟨fork, hparallel, (List.mem_filter.1 hfork).2⟩⟩
    · rw [Recheck.mayMeet, Bool.not_eq_true']
      exact h.heap
  have hforks :
      (x.par.mayRunParallel s.program (x.ops.get a).inst (x.ops.get b).inst).isEmpty = false :=
    Bool.eq_false_iff.2 fun hempty => TreeSet.isEmpty_iff_forall_not_mem.1 hempty fork hparallel
  simp only [Recheck.confirms, hmeets, Bool.and_true, Bool.and_eq_true, Bool.not_eq_true']
  exact ⟨⟨⟨⟨hforks, h.joins⟩, h.guards⟩, h.barriers⟩, h.locks⟩

end Screening

/-! ## pairs of a report -/

theorem Operations.inst_of_mem_accessesBy {p : Program} {freeWrites : Bool} {i : InstId}
    {e : Access} (he : e ∈ accessesBy p freeWrites i) : e.inst = i := by
  have hwrites {v : Option ValueId} (he : e ∈ v.toList.map (⟨i, ·, true⟩ : ValueId → Access)) :
      e.inst = i := by
    obtain ⟨v, -, rfl⟩ := List.mem_map.1 he
    rfl
  unfold accessesBy at he
  split at he
  · rw [List.mem_singleton.1 he]
  · rw [List.mem_singleton.1 he]
  · split at he
    · exact hwrites he
    · split at he
      · exact hwrites he
      · cases he
    · rcases List.mem_append.1 he with he | he
      · obtain ⟨v, -, rfl⟩ := List.mem_map.1 he
        rfl
      · exact hwrites he
    · cases he
  · cases he

/-- Only instructions of the program access memory. -/
theorem Operations.inst_lt_of_mem_ids {s : Subject} {a : AccessId} (ha : a ∈ (collect s).ids) :
    ((collect s).get a).inst < s.program.insts.size := by
  have hlt : a < (collect s).accesses.size := List.mem_range.1 ha
  have hget : (collect s).get a ∈ (collect s).accesses := by
    rw [Operations.get, Array.getD_eq_getD_getElem?, Array.getElem?_eq_getElem hlt,
      Option.getD_some]
    exact Array.getElem_mem hlt
  obtain ⟨i, -, he⟩ := List.mem_flatMap.1 (List.mem_toArray.1 hget)
  rw [inst_of_mem_accessesBy he]
  refine Program.lt_of_op_ne fun hop => ?_
  simp [accessesBy, hop] at he

theorem RaceWarning.exists_of_mem_pairs {s : Subject} {ops : Operations} {p : Partition}
    {i j : InstId} (h : (i, j) ∈ (ofPartition s ops p).pairs) : ∃ a b, (a, b) ∈ p.risky.pairs ∧
      ((ops.get a).inst = i ∧ (ops.get b).inst = j ∨ (ops.get a).inst = j ∧
        (ops.get b).inst = i) := by
  rw [ofPartition, TreeSet.mem_toList, TreeSet.mem_ofList, List.contains_iff_mem] at h
  have hsame (k l i j : Nat) (hmin : min k l = i) (hmax : max k l = j) :
      k = i ∧ l = j ∨ k = j ∧ l = i := by omega
  obtain ⟨q, hq, heq⟩ := List.mem_map.1 h
  obtain ⟨hmin, hmax⟩ := Prod.mk.inj heq
  exact ⟨q.1, q.2, TreeSet.mem_toList.1 hq, hsame _ _ _ _ hmin hmax⟩

namespace Phases

variable {s : Subject} {t : Phases} {w : RaceWarning} {i j : InstId}

theorem warnings_settle (t : Phases) (s : Subject) : (t.settle s).report.warnings =
    (RaceReport.collect s t.csRefinement.ops t.outcome).warnings := by
  unfold settle
  cases s.config.detail <;> rfl

theorem mem_warnings_settle : w ∈ (t.settle s).report.warnings ↔ ∃ p ∈ t.outcome.parts,
    p.isPruned = false ∧ RaceWarning.ofPartition s t.csRefinement.ops p = w := by
  rw [warnings_settle, RaceReport.collect, List.mem_mergeSort]
  simp [and_assoc]

/-- The pairs of a warning within its budget are those that are left. -/
theorem keeps_of_mem_pairs (hw : w ∈ (t.settle s).report.warnings) (hwithin : w.overBudget = false)
    (hij : (i, j) ∈ w.pairs) : ∃ objs a b, w.objects = objs.toList ∧
      t.csRefinement.parts.Keeps w.part objs a b ∧
      ((t.csRefinement.ops.get a).inst = i ∧ (t.csRefinement.ops.get b).inst = j ∨
        (t.csRefinement.ops.get a).inst = j ∧ (t.csRefinement.ops.get b).inst = i) := by
  obtain ⟨_, hq, -, rfl⟩ := mem_warnings_settle.1 hw
  obtain ⟨p, hp, rfl⟩ := List.mem_map.1 hq
  obtain ⟨a, b, hab, hinst⟩ := RaceWarning.exists_of_mem_pairs hij
  cases hover : p.risky.isOverBudget with
  | true =>
    rw [RaceWarning.ofPartition, if_pos hover, hover] at hwithin
    cases hwithin
  | false =>
    rw [if_neg (by simp [hover])] at hab ⊢
    exact ⟨p.objs, a, b, rfl, ⟨p, hp, rfl, rfl, hover, hab⟩, hinst⟩

end Phases

namespace Recheck

/-- **What is reported is confirmed.**  Without recursion and without alias refinement, a recheck
answers yes for the pairs of a warning that is within its budget, whatever other pairs are asked
about with them, in either order; it does so unless the pair is on the branch of the one spawn that
gets the object of the warning. -/
theorem run_confirms {p : Program} {c : Config} {s : Subject} {d : Detection} {par : Parallelism}
    {w : RaceWarning} {i j : InstId} (hmode : c.contextMode = .disabled)
    (hs : Subject.prepare p c = .ok s) (hrec : ∀ k ∈ s.components.list, k.recursive = false)
    (hplaced : ∀ i, p.isCall i = true → (p.block (p.blockOf i)).func = p.funcOf i)
    (hpar : Parallelism.analyze s (.collect s) = .ok par) (hd : Detection.run s = .ok d)
    (hw : w ∈ d.report.warnings) (hwithin : w.overBudget = false) (hij : (i, j) ∈ w.pairs)
    (hheap : ∀ o, w.objects = [o] → i ≠ j →
      ¬s.HandedToBoth par (.of s (.collect s) (.of s (.collect s))) o i j) :
    i < p.insts.size ∧ j < p.insts.size ∧ ∀ pairs : List (InstId × InstId),
      (∀ q ∈ pairs, q.1 < p.insts.size ∧ q.2 < p.insts.size) →
        ∃ answers, Recheck.run s pairs = .ok answers ∧ answers.length = pairs.length ∧
          ∀ k : Nat, pairs[k]? = some (i, j) ∨ pairs[k]? = some (j, i) →
            answers[k]? = some true := by
  have hprepared := Subject.prepared hs
  obtain ⟨rank, hl⟩ := hprepared.layered hplaced hrec
  obtain rfl := hprepared.program
  have hmode' : s.config.contextMode = .disabled := by rw [hprepared.config]; exact hmode
  have hm := Parallelism.indexed_of_analyze rfl hpar
  obtain ⟨t, ht, rfl⟩ := Detection.run_eq_ok_iff.1 hd
  obtain ⟨x, hx, -⟩ := exists_of_bind_eq_ok ht
  obtain ⟨hops, hpar', hescape, -, -⟩ := Screening.start_spec hmode' hx
  obtain rfl := Except.ok.inj (hpar'.symm.trans hpar)
  rw [← hops, ← hescape] at hheap
  obtain ⟨objs, a, b, hobjs, hkeeps, hinst⟩ := Phases.keeps_of_mem_pairs hw hwithin hij
  obtain ⟨hops', hpasses⟩ := Screening.passes_of_keeps hmode' hx hl ht hkeeps
  rw [hops'] at hinst
  rw [hobjs] at hheap
  have hids (e : AccessId) (he : ∃ p ∈ (Partitioning.of s x.ops).parts, e ∈ p.live) :
      (x.ops.get e).inst < s.program.insts.size := by
    obtain ⟨p, hp, he⟩ := he
    rw [hops] at hp ⊢
    exact Operations.inst_lt_of_mem_ids ((Partitioning.fresh_of_mem_parts hp).accesses e he)
  obtain ⟨part, hp, -, -, ha, hb⟩ := hpasses.shared
  have hlt := hids a ⟨part, hp, ha⟩
  have hlt' := hids b ⟨part, hp, hb⟩
  have hboth : confirms s (scope s x) (.of s x.ops) i j = true ∧
      confirms s (scope s x) (.of s x.ops) j i = true := by
    rcases hinst with ⟨rfl, rfl⟩ | ⟨rfl, rfl⟩
    · exact ⟨hpasses.confirms hm, (hpasses.symm hm hheap).confirms hm⟩
    · have hheap' := fun o ho hne => mt Subject.HandedToBoth.symm (hheap o ho (Ne.symm hne))
      exact ⟨(hpasses.symm hm hheap').confirms hm, hpasses.confirms hm⟩
  have hknown : i < s.program.insts.size ∧ j < s.program.insts.size := by
    rcases hinst with ⟨rfl, rfl⟩ | ⟨rfl, rfl⟩
    · exact ⟨hlt, hlt'⟩
    · exact ⟨hlt', hlt⟩
  refine ⟨hknown.1, hknown.2, fun pairs hpairs => ⟨_, run_eq hmode' hl hx hpairs, by simp, ?_⟩⟩
  intro k hk
  rw [List.getElem?_map]
  rcases hk with hk | hk
  · rw [hk, Option.map_some, hboth.1]
  · rw [hk, Option.map_some, hboth.2]

/-- Whether a pair is reported for a partition within its budget. -/
def reported (s : Subject) (t : Phases) (i j : InstId) (p : Partition) : Bool :=
  !p.isPruned && !p.risky.isOverBudget &&
    (RaceWarning.ofPartition s t.csRefinement.ops p).pairs.contains (i, j)

theorem exists_warning_of_reported {s : Subject} {t : Phases} {i j : InstId} {p : Partition}
    (hp : p ∈ t.outcome.parts) (h : reported s t i j p = true) :
    ∃ w ∈ (t.settle s).report.warnings, w.overBudget = false ∧ (i, j) ∈ w.pairs ∧
      w.objects = p.objs.toList := by
  simp only [reported, Bool.and_eq_true, Bool.not_eq_true', List.contains_iff_mem] at h
  exact ⟨_, Phases.mem_warnings_settle.2 ⟨p, hp, h.1.1, rfl⟩, h.1.2, h.2, rfl⟩

/-- The read and the write of the global in the loop are reported, and confirmed in either order,
also between questions about other instructions. -/
theorem run_confirms_guardedStore : ∃ s d,
    Subject.prepare (Builder.ofScript Detection.guardedStore)
      { contextMode := .disabled, riskyPairBudget := 3000 } = .ok s ∧
    Detection.run s = .ok d ∧ (∃ w ∈ d.report.warnings, (0, 1) ∈ w.pairs) ∧
    ∃ answers, Recheck.run s [(4, 4), (0, 1), (2, 3), (1, 0)] = .ok answers ∧ answers.length = 4 ∧
      answers[1]? = some true ∧ answers[3]? = some true := by
  have heval : Detection.holdsOf Detection.guardedStore 3000 (fun s t =>
      s.components.list.all (!·.recursive) &&
      (Parallelism.analyze s (.collect s)).toOption.any fun _ =>
        t.outcome.parts.any fun p => reported s t 0 1 p && p.objs.toList == [0] &&
          (s.heapAllocation? 0).isNone) = true := by
    decide +kernel
  have hplaced : (Builder.ofScript Detection.guardedStore).Placed := by
    unfold Program.Placed
    decide +kernel
  obtain ⟨s, t, hs, hd, hseen⟩ := Detection.exists_of_holdsOf heval
  rw [Bool.and_eq_true] at hseen
  obtain ⟨hrec, hseen⟩ := hseen
  obtain ⟨par, hpar, hseen⟩ := exists_of_any_toOption hseen
  obtain ⟨p, hp, hseen⟩ := List.any_eq_true.1 hseen
  rw [Bool.and_eq_true, Bool.and_eq_true, beq_iff_eq, Option.isNone_iff_eq_none] at hseen
  obtain ⟨⟨hreported, hobjs⟩, hnone⟩ := hseen
  have hrec' (k : Component) (hk : k ∈ s.components.list) : k.recursive = false := by
    simpa using Array.all_eq_true_iff_forall_mem.1 hrec k hk
  obtain ⟨w, hw, hwithin, hij, hobjects⟩ := exists_warning_of_reported hp hreported
  -- The object of the warning is a global.
  have hheap (o : ObjId) (ho : w.objects = [o]) (_ : 0 ≠ 1) :
      ¬s.HandedToBoth par (.of s (.collect s) (.of s (.collect s))) o 0 1 := by
    rintro ⟨alloc, -, halloc, -⟩
    rw [hobjects, hobjs, List.cons.injEq] at ho
    rw [← ho.1, hnone] at halloc
    cases halloc
  obtain ⟨-, -, hall⟩ :=
    run_confirms rfl hs hrec' (fun i hi => hplaced i (Program.lt_of_isCall hi)) hpar
    hd hw hwithin hij hheap
  obtain ⟨answers, hrun, hlength, hanswers⟩ :=
    hall [(4, 4), (0, 1), (2, 3), (1, 0)] (by decide +kernel)
  exact ⟨s, _, hs, hd, ⟨w, hw, hij⟩, answers, hrun, hlength, hanswers 1 (.inl rfl),
    hanswers 3 (.inr rfl)⟩

/-- Two functions of a parallel loop call each other; one is entered only where a comparison holds,
and the loop writes to what they write to only where it does not. -/
def guardedRecursion : List Command :=
  [.global "y" 0, .global "x" 0, .global "flag" 0, .declare "f" 0, .declare "g" 0,
    .declare "body" 1, .declare "main" 0, .declare "parallel_for" 2, .const 0,
    .body 0, .append 0 0 (.store 0 11), .append 0 0 (.call (.direct 1) []), .append 0 0 (.ret none),
    .body 1, .block 1, .block 1, .append 1 1 (.store 1 11), .append 1 1 (.load 2),
    .append 1 1 (.compare .eq 13 11), .append 1 1 (.branch 14 2 3),
    .append 1 2 (.call (.direct 0) []), .append 1 2 (.jump 3), .append 1 3 (.ret none),
    .body 2, .block 2, .block 2, .block 2, .append 2 4 (.load 2), .append 2 4 (.compare .eq 16 11),
    .append 2 4 (.branch 17 5 6), .append 2 5 (.call (.direct 0) []), .append 2 5 (.jump 7),
    .append 2 6 (.store 0 11), .append 2 6 (.store 1 11), .append 2 6 (.jump 7),
    .append 2 7 (.ret none),
    .body 3, .append 3 8 (.call (.direct 4) [5, 11]), .append 3 8 (.ret none)]

/-- In recursion the guards that are found depend on what was asked for before, so that what is
reported is not always confirmed. -/
theorem not_forall_run_confirms : ¬∀ (p : Program) (c : Config) (s : Subject) (d : Detection)
    (w : RaceWarning) (i j : InstId), p.Finished → c.contextMode = .disabled →
    Subject.prepare p c = .ok s → Detection.run s = .ok d → w ∈ d.report.warnings →
    w.overBudget = false → (i, j) ∈ w.pairs →
      Recheck.run s [(i, j)] = .ok [true] ∧ Recheck.run s [(j, i)] = .ok [true] := by
  intro hall
  have heval : Detection.holdsOf guardedRecursion 3000 (fun s t =>
      (t.outcome.parts.any fun p => reported s t 3 16 p) &&
        (Recheck.run s [(3, 16)]).toOption == some [false]) = true := by
    decide +kernel
  obtain ⟨s, t, hs, hd, hseen⟩ := Detection.exists_of_holdsOf heval
  rw [Bool.and_eq_true, List.any_eq_true, beq_iff_eq] at hseen
  obtain ⟨⟨p, hp, hreported⟩, hrun⟩ := hseen
  obtain ⟨w, hw, hwithin, hij, -⟩ := exists_warning_of_reported hp hreported
  have hconfirmed :=
    (hall _ _ s _ w 3 16 (Builder.finished_ofScript (by decide +kernel)) rfl hs hd hw
    hwithin hij).1
  rw [hconfirmed] at hrun
  cases hrun

end Recheck

end DataRace
