import DataRace.Proofs.Flow.Loop
import Mathlib.Data.List.Sort

/-!
# DataRace.Proofs.Flow.LoopRun

Ways through a loop, iteration by iteration.

A way through a loop (`Loop.Walk`) visits its blocks one after the other from
the header on, and every visit of the header begins an iteration.  A block
that dominates all latches is visited in every iteration that ends, and one
that dominates a visited block was visited in the same iteration.  How control
gets from one block to the next is left open: it may follow some of the edges.

* `Walk.mem_or_around`, `Walk.mem_of_lt` — the blocks that an iteration visits;
* `Walk.passes` — every visit but the last one leads on in the loop;
* `Walk.nodup_iterations` — a block without a way back is visited once;
* `Completes.iterations_sublist` — of two loops with equal tests, what runs in the
  iterations of one also runs in those of the other.
-/

namespace DataRace

open Std

namespace Loop

/-- The visits on a way through a loop, the latest first, each with the number of its iteration. -/
inductive Walk (l : Loop) (next : BlockId → Nat → BlockId → Prop) : List (BlockId × Nat) → Prop
  | enter : Walk l next [(l.header, 0)]
  | step {b c : BlockId} {k : Nat} {vs : List (BlockId × Nat)} : Walk l next ((b, k) :: vs) →
      c ∈ l.blocks → next b k c →
      Walk l next ((c, if c = l.header then k + 1 else k) :: (b, k) :: vs)

theorem walk_cons_iff {l : Loop} {next : BlockId → Nat → BlockId → Prop} {b c : BlockId} {k n : Nat}
    {vs : List (BlockId × Nat)} : Walk l next ((c, n) :: (b, k) :: vs) ↔
      Walk l next ((b, k) :: vs) ∧ c ∈ l.blocks ∧ next b k c ∧
        n = if c = l.header then k + 1 else k := by
  constructor
  · rintro (_ | ⟨hw, hc, hnext⟩)
    exact ⟨hw, hc, hnext, rfl⟩
  · rintro ⟨hw, hc, hnext, rfl⟩
    exact hw.step hc hnext

instance Walk.decidable (l : Loop) (next : BlockId → Nat → BlockId → Prop)
    [∀ b k c, Decidable (next b k c)] : ∀ vs, Decidable (Walk l next vs)
  | [] => .isFalse nofun
  | [(b, k)] => decidable_of_iff (b = l.header ∧ k = 0)
    ⟨fun ⟨hb, hk⟩ => hb ▸ hk ▸ .enter, fun h => by cases h; exact ⟨rfl, rfl⟩⟩
  | (c, n) :: (b, k) :: vs =>
    have := Walk.decidable l next ((b, k) :: vs)
    decidable_of_iff _ walk_cons_iff.symm

/-- The iterations in which a block is visited, the latest first. -/
def iterations (vs : List (BlockId × Nat)) (b : BlockId) : List Nat :=
  (vs.filter (·.1 = b)).map (·.2)

/-- The blocks of a loop that control gets to from a block before it returns to the header. -/
def ahead (p : Program) (l : Loop) (b : BlockId) : IdSet :=
  let inner (a : BlockId) := (p.block a).succs.filter fun c => l.contains c && c != l.header
  reachable p.blocks.size inner (inner b)

theorem mem_iterations_iff {vs : List (BlockId × Nat)} {b : BlockId} {k : Nat} :
    k ∈ iterations vs b ↔ (b, k) ∈ vs := by
  simp only [iterations, List.mem_map, List.mem_filter, decide_eq_true_eq, Prod.exists]
  constructor
  · rintro ⟨a, n, ⟨h, rfl⟩, rfl⟩
    exact h
  · exact fun h => ⟨b, k, ⟨h, rfl⟩, rfl⟩

namespace Walk

variable {l : Loop} {next : BlockId → Nat → BlockId → Prop} {vs : List (BlockId × Nat)}
  {a b c : BlockId} {k n : Nat}

/-- Iterations are counted upwards. -/
theorem pairwise (h : Walk l next vs) : vs.Pairwise fun v w => w.2 ≤ v.2 := by
  induction h with
  | enter => exact List.pairwise_singleton _ _
  | @step b c k vs hw hc hnext ih =>
    refine List.pairwise_cons.2 ⟨fun w hw => ?_, ih⟩
    have hle : w.2 ≤ k := by
      rcases List.mem_cons.1 hw with rfl | hw
      · exact Nat.le_refl _
      · exact (List.pairwise_cons.1 ih).1 w hw
    change w.2 ≤ if c = l.header then k + 1 else k
    split <;> omega

theorem le (h : Walk l next ((b, k) :: vs)) (hn : (c, n) ∈ (b, k) :: vs) : n ≤ k := by
  rcases List.mem_cons.1 hn with heq | hn
  · cases heq
    exact Nat.le_refl _
  · exact (List.pairwise_cons.1 h.pairwise).1 _ hn

/-- What was visited before is a way through the loop, too. -/
theorem of_suffix (h : Walk l next vs) {us ws : List (BlockId × Nat)} {v : BlockId × Nat}
    (heq : vs = us ++ v :: ws) : Walk l next (v :: ws) := by
  induction h generalizing us with
  | enter =>
    cases us with
    | nil =>
      cases heq
      exact enter
    | cons u us => simp at heq
  | @step b c k vs hw hc hnext ih =>
    cases us with
    | nil =>
      cases heq
      exact hw.step hc hnext
    | cons u us => exact ih (List.cons.inj heq).2

/-- Every visit but the last one leads on in the loop. -/
theorem passes {v : BlockId × Nat} (h : Walk l next (v :: vs)) (ha : (a, n) ∈ vs) :
    ∃ c ∈ l.blocks, next a n c := by
  generalize hvs : v :: vs = ws at h
  induction h generalizing v vs with
  | enter =>
    cases hvs
    cases ha
  | @step b c k us hw hc hnext ih =>
    cases hvs
    rcases List.mem_cons.1 ha with heq | ha
    · cases heq
      exact ⟨c, hc, hnext⟩
    · exact ih ha rfl

section

variable {p : Program} {f : FuncId} (hp : p.Finished)
  (hnext : ∀ {a k c}, next a k c → c ∈ (p.block a).succs)

include hp hnext

/-- What is visited in an iteration behind a visit of a block lies ahead of it. -/
theorem mem_ahead (h : Walk l next ((b, k) :: vs)) (hc : (c, k) ∈ vs) : b ∈ l.ahead p c := by
  generalize hvs : (b, k) :: vs = ws at h
  induction h generalizing b k vs with
  | enter =>
    cases hvs
    cases hc
  | @step d e n us hw he hedge ih =>
    obtain ⟨heq, rfl⟩ := List.cons.inj hvs
    cases heq
    by_cases hheader : e = l.header
    · rw [if_pos hheader] at hc
      exact absurd (hw.le hc) (Nat.not_succ_le_self n)
    · rw [if_neg hheader] at hc
      have hlt := (hp.succ_spec (hnext hedge)).2.1
      have hinner : e ∈ (p.block d).succs.filter fun c => l.contains c && c != l.header := by
        rw [List.mem_filter, Bool.and_eq_true, bne_iff_ne]
        exact ⟨hnext hedge, contains_iff.2 he, hheader⟩
      rcases List.mem_cons.1 hc with heq | hc
      · cases heq
        exact mem_reachable_of_start hinner hlt
      · exact mem_reachable_of_next (ih hc rfl) hinner hlt

/-- A block that no way within the loop leads back to is visited once in an iteration. -/
theorem nodup_iterations (h : Walk l next vs) (hback : c ∉ l.ahead p c) :
    (iterations vs c).Nodup := by
  induction h with
  | enter =>
    refine (List.nodup_singleton 0).sublist ?_
    exact (List.filter_sublist (l := [(l.header, 0)])).map Prod.snd
  | @step b d k vs hw hd hedge ih =>
    by_cases hdc : d = c
    · subst hdc
      have hnew := fun hmem => hback (mem_ahead hp hnext (hw.step hd hedge) hmem)
      rw [iterations, List.filter_cons_of_pos (by simp), List.map_cons]
      exact List.nodup_cons.2 ⟨fun hmem => hnew (mem_iterations_iff.1 hmem), ih⟩
    · rwa [iterations, List.filter_cons_of_neg (by simpa using hdc)]

omit hp hnext in
theorem mem_blocks (hl : l.Natural p f) (h : Walk l next vs) (hb : (b, k) ∈ vs) : b ∈ l.blocks := by
  induction h with
  | enter =>
    cases List.mem_singleton.1 hb
    exact hl.header_mem
  | step hw hc hedge ih =>
    rcases List.mem_cons.1 hb with heq | hb
    · cases heq
      exact hc
    · exact ih hb

/-- A block behind the header is visited in an iteration, or control got around it. -/
theorem mem_or_around (h : Walk l next ((b, k) :: vs))
    (hc : (FlowGraph.forward p f).Dom l.header c) :
    (c, k) ∈ (b, k) :: vs ∨ b ∈ (FlowGraph.forward p f).reachedAround c := by
  have hheader {k : Nat} {vs : List (BlockId × Nat)} :
      (c, k) ∈ (l.header, k) :: vs ∨ l.header ∈ (FlowGraph.forward p f).reachedAround c := by
    by_cases heq : c = l.header
    · exact .inl (heq ▸ List.mem_cons_self)
    · refine .inr (Classical.byContradiction fun hout => heq ?_)
      exact FlowGraph.Dom.antisymm ⟨hc.reached, hc.reached_left, hout⟩ hc
  generalize hvs : (b, k) :: vs = ws at h
  induction h generalizing b k vs with
  | enter =>
    cases hvs
    exact hheader
  | @step d e n us hw he hedge ih =>
    cases hvs
    by_cases heq : e = l.header
    · subst heq
      exact hheader
    · rw [if_neg heq]
      by_cases hec : e = c
      · exact .inl (hec ▸ List.mem_cons_self)
      · refine (ih rfl).imp (List.mem_cons_of_mem _) fun hd => ?_
        exact FlowGraph.mem_around_of_next hd (hnext hedge) (hp.succ_spec (hnext hedge)).2.1 hec

/-- A block that dominates a visited block was visited in the same iteration. -/
theorem mem_of_dom (h : Walk l next ((b, k) :: vs)) (hc : (FlowGraph.forward p f).Dom l.header c)
    (hcb : (FlowGraph.forward p f).Dom c b) : (c, k) ∈ (b, k) :: vs :=
  (mem_or_around hp hnext h hc).resolve_right hcb.not_around

variable (hl : l.Natural p f)

include hl

/-- A block that dominates all latches is visited in every iteration that has ended. -/
theorem mem_of_lt (h : Walk l next ((b, k) :: vs)) (hc : (FlowGraph.forward p f).Dom l.header c)
    (hlatch : ∀ a ∈ l.latches, (FlowGraph.forward p f).Dom c a) (hn : n < k) : (c, n) ∈ vs := by
  generalize hvs : (b, k) :: vs = ws at h
  induction h generalizing b k vs with
  | enter =>
    cases hvs
    exact absurd hn (Nat.not_lt_zero n)
  | @step d e m us hw he hedge ih =>
    cases hvs
    have hold (hn : n < m) : (c, n) ∈ (d, m) :: us := List.mem_cons_of_mem _ (ih hn rfl)
    by_cases heq : e = l.header
    · rw [if_pos heq] at hn
      rcases Nat.lt_succ_iff_lt_or_eq.1 hn with hn | rfl
      · exact hold hn
      · have hd := hl.dom (mem_blocks hl hw List.mem_cons_self)
        have hlatch := hlatch d (hl.mem_latches_iff.2 ⟨heq ▸ hnext hedge, hd⟩)
        exact mem_of_dom hp hnext hw hc hlatch
    · rw [if_neg heq] at hn
      exact hold hn

end

theorem pairwise_iterations (h : Walk l next vs) (b : BlockId) :
    (iterations vs b).Pairwise (· ≥ ·) :=
  List.pairwise_map.2 (h.pairwise.filter _)

end Walk

/-! ## complete runs -/

/-- A way through a loop at the end of which control leaves it. -/
def Completes (l : Loop) (next : BlockId → Nat → BlockId → Prop) (vs : List (BlockId × Nat)) :
    Prop :=
  Walk l next vs ∧ ∃ v ∈ vs.head?, ∃ c, c ∉ l.blocks ∧ next v.1 v.2 c

/-- Control leaves a loop at one block only, where a test decides whether it goes on. -/
structure Tested (l : Loop) (next : BlockId → Nat → BlockId → Prop) (e : BlockId)
    (goesOn : Nat → Prop) : Prop where
  leaves : ∀ {b k c}, b ∈ l.blocks → next b k c → c ∉ l.blocks → b = e ∧ ¬goesOn k
  stays : ∀ {k c}, next e k c → c ∈ l.blocks → goesOn k

section

variable {p : Program} {f : FuncId} {l m : Loop} {next next' : BlockId → Nat → BlockId → Prop}
  {vs ws : List (BlockId × Nat)} {b c e e' : BlockId} {goesOn : Nat → Prop}

/-- A complete run ends with a test that fails. -/
theorem Completes.exists_last (h : Completes l next vs) (hl : l.Natural p f)
    (ht : Tested l next e goesOn) : ∃ k us, vs = (e, k) :: us ∧ ¬goesOn k := by
  obtain ⟨hw, ⟨b, k⟩, hlast, c, hc, hnext⟩ := h
  obtain ⟨us, rfl⟩ := List.head?_eq_some_iff.1 hlast
  obtain ⟨rfl, hstop⟩ := ht.leaves (hw.mem_blocks hl List.mem_cons_self) hnext hc
  exact ⟨k, us, rfl, hstop⟩

/-- Two loops with equal tests: what runs once in each iteration of the first that passes the test
runs no more often than what runs in every iteration of the second, if the test of the first is
made in every iteration. -/
theorem Completes.iterations_sublist (hp : p.Finished) (hl : l.Natural p f) (hm : m.Natural p f)
    (hnext : ∀ {a k c}, next a k c → c ∈ (p.block a).succs)
    (hnext' : ∀ {a k c}, next' a k c → c ∈ (p.block a).succs)
    (ht : Tested l next e goesOn) (ht' : Tested m next' e' goesOn)
    (he : e ∈ l.blocks) (hevery : ∀ a ∈ l.latches, (FlowGraph.forward p f).Dom e a)
    (honce : b ∉ l.ahead p b)
    (hc : c ∈ m.blocks) (hevery' : ∀ a ∈ m.latches, (FlowGraph.forward p f).Dom c a)
    (hplace : e ≠ b ∧ (FlowGraph.forward p f).Dom e b ∨ (FlowGraph.forward p f).Dom c e')
    (hv : Completes l next vs) (hw : Completes m next' ws) :
    (iterations vs b).Sublist (iterations ws c) := by
  obtain ⟨k, us, rfl, hstop⟩ := hv.exists_last hl ht
  obtain ⟨n, xs, rfl, hstop'⟩ := hw.exists_last hm ht'
  -- the first run makes the failing test of the second one no earlier
  have hle : k ≤ n := by
    by_contra hlt
    have hmem := hv.1.mem_of_lt hp hnext hl (hl.dom he) hevery (Nat.lt_of_not_le hlt)
    obtain ⟨a, ha, hpass⟩ := hv.1.passes hmem
    exact hstop' (ht.stays hpass ha)
  have hmem {i : Nat} (hi : (b, i) ∈ (e, k) :: us) : (c, i) ∈ (e', n) :: xs := by
    have hik := hv.1.le hi
    rcases Nat.lt_or_ge i n with hlt | hge
    · exact List.mem_cons_of_mem _ (hw.1.mem_of_lt hp hnext' hm (hm.dom hc) hevery' hlt)
    · obtain rfl : i = n := by omega
      obtain rfl : k = i := by omega
      rcases hplace with ⟨hne, hdom⟩ | hdom
      · -- behind the failing test nothing is visited any more
        have hi : (b, k) ∈ us := (List.mem_cons.1 hi).resolve_left fun h => hne (by cases h; rfl)
        obtain ⟨front, back, rfl⟩ := List.append_of_mem hi
        have hsplit :
            (e, k) :: (front ++ (b, k) :: back) = ((e, k) :: front) ++ (b, k) :: back := rfl
        have hwalk : Walk l next ((b, k) :: back) := hv.1.of_suffix hsplit
        have htest : (e, k) ∈ (b, k) :: back := hwalk.mem_of_dom hp hnext (hl.dom he) hdom
        obtain ⟨a, ha, hpass⟩ := hv.1.passes (List.mem_append_right front htest)
        exact absurd (ht.stays hpass ha) hstop
      · exact hw.1.mem_of_dom hp hnext' (hm.dom hc) hdom
  refine List.sublist_of_subperm_of_pairwise (r := (· ≥ ·)) ?_ (hv.1.pairwise_iterations b)
    (hw.1.pairwise_iterations c)
  refine (hv.1.nodup_iterations hp hnext honce).subperm fun i hi => ?_
  exact mem_iterations_iff.2 (hmem (mem_iterations_iff.1 hi))

end

end Loop

end DataRace
