import DataRace.Flow.Search
import DataRace.Proofs.Collection
import Mathlib.Data.List.Chain
import Mathlib.Logic.Relation

/-!
# DataRace.Proofs.Flow.Search

The search finds exactly the nodes that a path leads to.

A node that is seen is either still on the stack or has all its successors
seen.  When the stack is empty the seen nodes are closed under the edges; that
nothing else is seen holds at every step.

* `Search.Edge` are the edges between nodes below the bound;
* `mem_reachable_iff` — the reachable nodes are those at the end of a path, which
  `mem_reachable_iff_track` writes down as a list;
* `mem_reachable_cases` — a reachable node is a start node or follows one;
* `reachable_induction` — what all edges keep holds of the reachable nodes;
* `Search.explore_induction` — what every visit keeps holds in the end.
-/

namespace DataRace

open Relation

namespace Search

/-- An edge to a node below the bound. -/
def Edge (n : Nat) (next : Nat → List Nat) (a b : Nat) : Prop := b ∈ next a ∧ b < n

/-- A node that is not discovered is out of range or was seen before. -/
theorem mem_seen_of_not_new {n y : Nat} {seen : IdSet} (h : ¬(y < n ∧ seen.contains y = false))
    (hlt : y < n) : y ∈ seen := by
  rw [Std.TreeSet.mem_iff_contains, ← Bool.not_eq_false]
  exact fun hc => h ⟨hlt, hc⟩

theorem mem_discover {n x : Nat} {ys : List Nat} {seen : IdSet} {stack : List Nat} :
    x ∈ (discover n ys seen stack).1 ↔ x ∈ seen ∨ x ∈ ys ∧ x < n := by
  induction ys generalizing seen stack with
  | nil => simp [discover]
  | cons y ys ih =>
    rw [discover]
    split
    · next h =>
      rw [ih, IdSet.mem_insert]
      grind
    · next h =>
      have hy : y < n → y ∈ seen := mem_seen_of_not_new h
      rw [ih]
      grind

theorem mem_discover_stack {n x : Nat} {ys : List Nat} {seen : IdSet} {stack : List Nat} :
    x ∈ (discover n ys seen stack).2 ↔ x ∈ stack ∨ x ∈ ys ∧ x < n ∧ x ∉ seen := by
  induction ys generalizing seen stack with
  | nil => simp [discover]
  | cons y ys ih =>
    rw [discover]
    split
    · next h =>
      have hy : y ∉ seen := by
        rw [Std.TreeSet.mem_iff_contains, h.2]
        simp
      rw [ih, IdSet.mem_insert]
      grind
    · next h =>
      have hy : y < n → y ∈ seen := mem_seen_of_not_new h
      rw [ih]
      grind

/-- What holds while the stack is followed: its nodes are seen, and the successors of every other
seen node are seen. -/
def Pending (n : Nat) (next : Nat → List Nat) (seen : IdSet) (stack : List Nat) : Prop :=
  (∀ x ∈ stack, x ∈ seen) ∧ ∀ a ∈ seen, a ∉ stack → ∀ b, Edge n next a b → b ∈ seen

/-- Taking a node off the stack puts its new successors on it. -/
theorem Pending.discover {n x : Nat} {next : Nat → List Nat} {seen : IdSet} {rest : List Nat}
    (h : Pending n next seen (x :: rest)) :
    Pending n next (discover n (next x) seen rest).1 (discover n (next x) seen rest).2 := by
  obtain ⟨hstack, hclosed⟩ := h
  constructor
  · intro y hy
    rw [mem_discover]
    rcases mem_discover_stack.1 hy with hy | ⟨hy, hlt, -⟩
    · exact .inl (hstack y (List.mem_cons_of_mem x hy))
    · exact .inr ⟨hy, hlt⟩
  · intro a ha hout b hb
    rw [mem_discover] at ha ⊢
    rw [mem_discover_stack, not_or] at hout
    by_cases hax : a = x
    · exact .inr (hax ▸ hb)
    · rcases ha with ha | ha
      · exact .inl (hclosed a ha (by simp [hax, hout.1]) b hb)
      · by_cases hseen : a ∈ seen
        · exact .inl (hclosed a hseen (by simp [hax, hout.1]) b hb)
        · exact absurd ⟨ha.1, ha.2, hseen⟩ hout.2

theorem mem_follow_of_mem {n x : Nat} {next : Nat → List Nat} {seen : IdSet} {stack : List Nat}
    (h : x ∈ seen) : x ∈ follow n next seen stack := by
  fun_induction follow n next seen stack with
  | case1 seen => exact h
  | case2 seen y rest ih => exact ih (mem_discover.2 (.inl h))

theorem follow_closed {n a b : Nat} {next : Nat → List Nat} {seen : IdSet} {stack : List Nat}
    (h : Pending n next seen stack) (ha : a ∈ follow n next seen stack) (hb : Edge n next a b) :
    b ∈ follow n next seen stack := by
  fun_induction follow n next seen stack with
  | case1 seen => exact h.2 a ha List.not_mem_nil b hb
  | case2 seen y rest ih => exact ih h.discover ha

/-- Only nodes at the end of a path from a seen node are followed to. -/
theorem exists_path_of_mem_follow {n x : Nat} {next : Nat → List Nat} {seen : IdSet}
    {stack : List Nat} (h : Pending n next seen stack) (hx : x ∈ follow n next seen stack) :
    ∃ a ∈ seen, ReflTransGen (Edge n next) a x := by
  fun_induction follow n next seen stack with
  | case1 seen => exact ⟨x, hx, .refl⟩
  | case2 seen y rest ih =>
    obtain ⟨a, ha, hpath⟩ := ih h.discover hx
    rcases mem_discover.1 ha with ha | ha
    · exact ⟨a, ha, hpath⟩
    · exact ⟨y, h.1 y List.mem_cons_self, hpath.head ha⟩

/-- What a visit keeps holds when no node is left to take. -/
theorem explore_induction {σ : Type} {n : Nat} {visit : σ → Nat → σ × List Nat}
    {P : IdSet → List Nat → σ → Prop}
    (hskip : ∀ seen x rest st, P seen (x :: rest) st → (x < n → x ∈ seen) → P seen rest st)
    (hvisit : ∀ seen x rest st, P seen (x :: rest) st → x < n → x ∉ seen →
      P (seen.insert x) ((visit st x).2.reverse ++ rest) (visit st x).1)
    {seen : IdSet} {stack : List Nat} {st : σ} (h : P seen stack st) :
    ∃ seen', P seen' [] (explore n visit seen stack st) := by
  fun_induction explore n visit seen stack st with
  | case1 seen st => exact ⟨seen, h⟩
  | case2 seen st x rest hx ih =>
    have hnot : x ∉ seen := by
      rw [Std.TreeSet.mem_iff_contains, hx.2]
      simp
    exact ih (hvisit seen x rest st h hx.1 hnot)
  | case3 seen st x rest hx ih =>
    refine ih (hskip seen x rest st h fun hlt => ?_)
    rw [Std.TreeSet.mem_iff_contains, ← Bool.not_eq_false]
    exact fun hc => hx ⟨hlt, hc⟩

end Search

open Search

variable {n x : Nat} {next : Nat → List Nat} {start : List Nat}

theorem pending_start : Pending n next (discover n start ∅ []).1 (discover n start ∅ []).2 := by
  constructor
  · intro y hy
    simpa [mem_discover, mem_discover_stack] using hy
  · intro a ha hout
    exact absurd (by simpa [mem_discover, mem_discover_stack] using ha) hout

/-- The reachable nodes are those at the end of a path from a start node. -/
theorem mem_reachable_iff : x ∈ reachable n next start ↔
    ∃ a ∈ start, a < n ∧ ReflTransGen (Edge n next) a x := by
  constructor
  · intro hx
    obtain ⟨a, ha, hpath⟩ := exists_path_of_mem_follow pending_start hx
    have ha : a ∈ start ∧ a < n := by simpa [mem_discover] using ha
    exact ⟨a, ha.1, ha.2, hpath⟩
  · rintro ⟨a, ha, hlt, hpath⟩
    induction hpath with
    | refl => exact mem_follow_of_mem (mem_discover.2 (.inr ⟨ha, hlt⟩))
    | tail _ hedge ih => exact follow_closed pending_start ih hedge

theorem lt_of_mem_reachable (h : x ∈ reachable n next start) : x < n := by
  obtain ⟨a, -, hlt, hpath⟩ := mem_reachable_iff.1 h
  cases hpath with
  | refl => exact hlt
  | tail _ hedge => exact hedge.2

theorem mem_reachable_of_start (hx : x ∈ start) (hlt : x < n) : x ∈ reachable n next start :=
  mem_reachable_iff.2 ⟨x, hx, hlt, .refl⟩

theorem mem_reachable_of_next {a : Nat} (ha : a ∈ reachable n next start) (hx : x ∈ next a)
    (hlt : x < n) : x ∈ reachable n next start := by
  obtain ⟨r, hr, hr_lt, hpath⟩ := mem_reachable_iff.1 ha
  exact mem_reachable_iff.2 ⟨r, hr, hr_lt, hpath.tail ⟨hx, hlt⟩⟩

/-- What holds of the start nodes and is kept by every edge holds of all reachable nodes. -/
theorem reachable_induction {P : Nat → Prop} (hstart : ∀ a ∈ start, a < n → P a)
    (hnext : ∀ a ∈ reachable n next start, P a → ∀ b ∈ next a, b < n → P b) :
    ∀ x ∈ reachable n next start, P x := by
  intro x hx
  obtain ⟨r, hr, hlt, hpath⟩ := mem_reachable_iff.1 hx
  induction hpath with
  | refl => exact hstart r hr hlt
  | tail hinit hedge ih =>
    have ha := mem_reachable_iff.2 ⟨r, hr, hlt, hinit⟩
    exact hnext _ ha (ih ha) _ hedge.1 hedge.2

/-- A reachable node is a start node or follows a reachable one. -/
theorem mem_reachable_cases (h : x ∈ reachable n next start) :
    x ∈ start ∨ ∃ d ∈ reachable n next start, x ∈ next d := by
  obtain ⟨a, ha, hlt, hpath⟩ := mem_reachable_iff.1 h
  cases hpath with
  | refl => exact .inl ha
  | tail hinit hedge => exact .inr ⟨_, mem_reachable_iff.2 ⟨a, ha, hlt, hinit⟩, hedge.1⟩

/-- What is reached behind a node is at the end of a path of at least one edge. -/
theorem mem_reachable_next_iff {a : Nat} (hnext : ∀ {a b}, b ∈ next a → b < n) :
    x ∈ reachable n next (next a) ↔ TransGen (fun a b => b ∈ next a) a x := by
  have hedge : Search.Edge n next = fun a b => b ∈ next a := by
    funext a b
    exact propext (and_iff_left_of_imp hnext)
  rw [mem_reachable_iff, hedge, TransGen.head'_iff]
  refine exists_congr fun b => and_congr_right fun hb => ?_
  exact and_iff_right_of_imp fun _ => hnext hb

/-! ## tracks -/

/-- A track to a node, written down from its end: each node follows the next in the list, and the
last one is a start node. -/
def Track (next : Nat → List Nat) (start w : List Nat) (x : Nat) : Prop :=
  w.IsChain (fun y z => y ∈ next z) ∧ w.head? = some x ∧ ∃ a ∈ start, w.getLast? = some a

namespace Track

variable {w : List Nat} {a : Nat}

theorem single (hx : x ∈ start) : Track next start [x] x :=
  ⟨List.isChain_singleton x, rfl, x, hx, rfl⟩

theorem cons (h : Track next start w a) (hx : x ∈ next a) : Track next start (x :: w) x := by
  obtain ⟨hchain, hhead, r, hr, hlast⟩ := h
  cases w with
  | nil => cases hhead
  | cons c w =>
    cases hhead
    exact ⟨List.isChain_cons_cons.2 ⟨hx, hchain⟩, rfl, r, hr, hlast⟩

/-- A track is a start node, or it goes on from another track. -/
theorem cases (h : Track next start w x) : x ∈ start ∧ w = [x] ∨
    ∃ a w', Track next start w' a ∧ x ∈ next a ∧ w = x :: w' := by
  obtain ⟨hchain, hhead, r, hr, hlast⟩ := h
  cases w with
  | nil => cases hhead
  | cons c w =>
    cases hhead
    cases w with
    | nil =>
      cases hlast
      exact .inl ⟨hr, rfl⟩
    | cons d w =>
      obtain ⟨hnext, hchain⟩ := List.isChain_cons_cons.1 hchain
      exact .inr ⟨d, d :: w, ⟨hchain, rfl, r, hr, hlast⟩, hnext, rfl⟩

/-- What holds of the start nodes and is kept by every edge holds along a track. -/
theorem induction {P : Nat → Prop} (h : Track next start w x) (hstart : ∀ a ∈ start, P a)
    (hnext : ∀ a, P a → ∀ b ∈ next a, P b) : ∀ y ∈ w, P y := by
  induction w generalizing x with
  | nil => exact fun y hy => absurd hy List.not_mem_nil
  | cons c w ih =>
    obtain ⟨hx, heq⟩ | ⟨a, w', h', hx, heq⟩ := h.cases
    · obtain ⟨rfl, rfl⟩ := List.cons.inj heq
      exact fun y hy => List.mem_singleton.1 hy ▸ hstart c hx
    · obtain ⟨rfl, rfl⟩ := List.cons.inj heq
      have hw := ih h'
      have ha : a ∈ w := List.mem_of_mem_head? h'.2.1
      intro y hy
      obtain rfl | hy := List.mem_cons.1 hy
      · exact hnext a (hw a ha) y hx
      · exact hw y hy

/-- A track goes through each of its nodes by a track to that node. -/
theorem right_of_append {v : List Nat} {a : Nat} (h : Track next start (v ++ a :: w) x) :
    Track next start (a :: w) a := by
  obtain ⟨hchain, -, r, hr, hlast⟩ := h
  refine ⟨hchain.right_of_append, rfl, r, hr, ?_⟩
  rwa [List.getLast?_append_of_ne_nil v (List.cons_ne_nil a w)] at hlast

/-- Where a track leads, one without repetition leads along the same nodes. -/
theorem exists_nodup (h : Track next start w x) :
    ∃ v, Track next start v x ∧ v.Nodup ∧ ∀ y ∈ v, y ∈ w := by
  induction w generalizing x with
  | nil => cases h.2.1
  | cons c w ih =>
    obtain ⟨hx, heq⟩ | ⟨a, w', h', hx, heq⟩ := h.cases
    · obtain ⟨rfl, rfl⟩ := List.cons.inj heq
      exact ⟨[c], .single hx, List.pairwise_singleton _ c, fun y hy => hy⟩
    · obtain ⟨rfl, rfl⟩ := List.cons.inj heq
      obtain ⟨v, hv, hnodup, hsub⟩ := ih h'
      by_cases hc : c ∈ v
      · -- the track has been here before: leave the round out
        obtain ⟨u, v, rfl⟩ := List.append_of_mem hc
        refine ⟨c :: v, hv.right_of_append, (List.nodup_append.1 hnodup).2.1, fun y hy => ?_⟩
        exact List.mem_cons_of_mem c (hsub y (List.mem_append_right u hy))
      · refine ⟨c :: v, hv.cons hx, List.nodup_cons.2 ⟨hc, hnodup⟩, fun y hy => ?_⟩
        exact List.mem_cons.2 ((List.mem_cons.1 hy).imp_right (hsub y))

end Track

/-- The reachable nodes are those a track leads to. -/
theorem mem_reachable_iff_track : x ∈ reachable n next start ↔
    ∃ w, Track next start w x ∧ ∀ y ∈ w, y < n := by
  constructor
  · intro hx
    refine reachable_induction (P := fun x => ∃ w, Track next start w x ∧ ∀ y ∈ w, y < n)
      (fun a ha hlt => ?_) (fun a _ hw b hb hlt => ?_) x hx
    · exact ⟨[a], .single ha, fun y hy => List.mem_singleton.1 hy ▸ hlt⟩
    · obtain ⟨w, htrack, hw⟩ := hw
      refine ⟨b :: w, htrack.cons hb, fun y hy => ?_⟩
      obtain rfl | hy := List.mem_cons.1 hy
      · exact hlt
      · exact hw y hy
  · rintro ⟨w, h, hw⟩
    induction w generalizing x with
    | nil => cases h.2.1
    | cons c w ih =>
      obtain ⟨hx, heq⟩ | ⟨a, w', h', hx, heq⟩ := h.cases
      · obtain ⟨rfl, rfl⟩ := List.cons.inj heq
        exact mem_reachable_of_start hx (hw c List.mem_cons_self)
      · obtain ⟨rfl, rfl⟩ := List.cons.inj heq
        have ha := ih h' fun y hy => hw y (List.mem_cons_of_mem c hy)
        exact mem_reachable_of_next ha hx (hw c List.mem_cons_self)

/-- A track of nodes that pass a test. -/
theorem track_filter_iff {f : Nat → Bool} {w : List Nat} :
    Track (fun a => (next a).filter f) (start.filter f) w x ↔
      Track next start w x ∧ ∀ y ∈ w, f y = true := by
  constructor
  · intro h
    refine ⟨⟨h.1.imp fun _ _ hy => (List.mem_filter.1 hy).1, h.2.1, ?_⟩, ?_⟩
    · obtain ⟨r, hr, hlast⟩ := h.2.2
      exact ⟨r, (List.mem_filter.1 hr).1, hlast⟩
    · exact h.induction (fun a ha => (List.mem_filter.1 ha).2) fun a _ b hb =>
        (List.mem_filter.1 hb).2
  · rintro ⟨h, hw⟩
    obtain ⟨r, hr, hlast⟩ := h.2.2
    refine ⟨?_, h.2.1, r, List.mem_filter.2 ⟨hr, hw r (List.mem_of_getLast? hlast)⟩, hlast⟩
    exact h.1.imp_of_mem_imp fun y z hy _ hyz => List.mem_filter.2 ⟨hyz, hw y hy⟩

end DataRace
