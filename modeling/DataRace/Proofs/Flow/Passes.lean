import DataRace.Flow.Dominance
import DataRace.Proofs.Flow.ReversePostorder

/-!
# DataRace.Proofs.Flow.Passes

The passes end, and they end with the immediate dominators.

The map of a pass never gives too little: climbing from a node it comes by every
node that all tracks go through (`PassTables.Ascends`).  What it may give too
much shrinks from pass to pass: after `k` of them every node one climbs to is on
all tracks of at most `k + 1` nodes (`PassTables.Covers`).  No track needs to go
through a node twice, so the map is exact after as many passes as there are
nodes, and one more changes nothing.

* `Unavoidable` — what all tracks to a node go through;
* `PassTables.Fits` — tables that belong to a graph;
* `PassTables.meet_spec`, `PassTables.meetAll_spec` — the nearest common ancestor;
* `PassTables.update_spec`, `PassTables.pass_spec` — what one update and one pass keep;
* `PassTables.settle_spec` — enough passes are made.
-/

namespace DataRace

open Std Relation

/-- All tracks to `x` go through `a`. -/
def Unavoidable (next : Nat → List Nat) (start a x : Nat) : Prop :=
  ∀ w, Track next [start] w x → a ∈ w

/-- What all tracks to a node go through, all tracks to the nodes before it go through. -/
theorem Unavoidable.of_next {next : Nat → List Nat} {start a x y : Nat}
    (h : Unavoidable next start a x) (hne : a ≠ x) (hx : x ∈ next y) : Unavoidable next start a y :=
  fun w hw => (List.mem_cons.1 (h (x :: w) (hw.cons hx))).resolve_left hne

namespace PassTables

/-- Tables that belong to a graph. -/
structure Fits (t : PassTables) (next : Nat → List Nat) (start : Nat) : Prop where
  rooted : RootedOrder next start (start :: t.order)
  place_eq : ∀ x ∈ start :: t.order, t.place x = (start :: t.order).idxOf x
  mem_before_iff : ∀ x ∈ t.order, ∀ y ∈ start :: t.order, y ∈ t.before.getD x [] ↔ x ∈ next y

variable {t : PassTables} {next : Nat → List Nat} {start : Nat}

namespace Fits

variable (ht : t.Fits next start) {a x y : Nat}

include ht

theorem place_inj (hx : x ∈ start :: t.order) (hy : y ∈ start :: t.order)
    (h : t.place x = t.place y) : x = y := by
  rw [ht.place_eq x hx, ht.place_eq y hy] at h
  exact (List.idxOf_inj hx).1 h

theorem ne_start (hx : x ∈ t.order) : x ≠ start :=
  fun heq => (List.nodup_cons.1 ht.rooted.nodup).1 (heq ▸ hx)

theorem pairwise_place : (start :: t.order).Pairwise (t.place · < t.place ·) := by
  refine List.pairwise_iff_getElem.2 fun i j hi hj hij => ?_
  rw [ht.place_eq _ (List.getElem_mem hi), ht.place_eq _ (List.getElem_mem hj),
    ht.rooted.nodup.idxOf_getElem, ht.rooted.nodup.idxOf_getElem]
  exact hij

/-- In the order a node stands behind one that leads to it. -/
theorem exists_before {done todo : List Nat} (horder : t.order = done ++ x :: todo) :
    ∃ y ∈ start :: done, x ∈ next y ∧ t.place y < t.place x := by
  have hsplit : start :: t.order = (start :: done) ++ x :: todo := by rw [horder, List.cons_append]
  obtain ⟨y, hy, hxy⟩ := ht.rooted.entered hsplit (ht.ne_start (by simp [horder]))
  have hplace := ht.pairwise_place
  rw [hsplit, List.pairwise_append] at hplace
  exact ⟨y, hy, hxy, hplace.2.2 y hy x List.mem_cons_self⟩

/-- What holds of the start and is handed on to the nodes behind holds of all nodes. -/
theorem induction {P : Nat → Prop} (hstart : P start)
    (hnext : ∀ x ∈ t.order, ∀ y, x ∈ next y → t.place y < t.place x → P y → P x) :
    ∀ x ∈ start :: t.order, P x := by
  have hprefix (done todo : List Nat) (horder : t.order = done ++ todo) :
      ∀ x ∈ start :: done, P x := by
    induction done using List.reverseRecOn generalizing todo with
    | nil => exact fun x hx => List.mem_singleton.1 hx ▸ hstart
    | append_singleton done x ih =>
      have horder : t.order = done ++ x :: todo := by simpa using horder
      obtain ⟨y, hy, hxy, hlt⟩ := ht.exists_before horder
      intro z hz
      rw [← List.cons_append] at hz
      rcases List.mem_append.1 hz with hz | hz
      · exact ih (x :: todo) horder z hz
      · obtain rfl := List.mem_singleton.1 hz
        exact hnext z (by simp [horder]) y hxy hlt (ih (z :: todo) horder y hy)
  exact hprefix t.order [] (List.append_nil _).symm

theorem exists_track : ∀ x ∈ start :: t.order, ∃ w, Track next [start] w x := by
  refine ht.induction ⟨[start], .single (List.mem_singleton_self start)⟩ fun x _ y hxy _ hy => ?_
  obtain ⟨w, hw⟩ := hy
  exact ⟨x :: w, hw.cons hxy⟩

theorem mem_order_of_track {w : List Nat} (hw : Track next [start] w x) :
    ∀ y ∈ w, y ∈ start :: t.order :=
  hw.induction (fun _ hr => List.mem_singleton.1 hr ▸ List.mem_cons_self) ht.rooted.closed

/-- A track need not be longer than the order. -/
theorem exists_short {w : List Nat} (hw : Track next [start] w x) :
    ∃ v, Track next [start] v x ∧ v.length ≤ t.order.length + 1 ∧ ∀ y ∈ v, y ∈ w := by
  obtain ⟨v, hv, hnodup, hsub⟩ := hw.exists_nodup
  exact ⟨v, hv, (hnodup.subperm (ht.mem_order_of_track hv)).length_le, hsub⟩

/-- What is unavoidable stands no later. -/
theorem place_le (hx : x ∈ start :: t.order) (h : Unavoidable next start a x) :
    t.place a ≤ t.place x := by
  revert h
  refine ht.induction (P := fun x => Unavoidable next start a x → t.place a ≤ t.place x)
    (fun h => ?_) (fun x _ y hxy hlt ih h => ?_) x hx
  · have ha := h [start] (.single (List.mem_singleton_self start))
    exact (List.mem_singleton.1 ha) ▸ Nat.le_refl _
  · by_cases heq : a = x
    · exact heq ▸ Nat.le_refl _
    · exact Nat.le_trans (ih (h.of_next heq hxy)) (Nat.le_of_lt hlt)

end Fits

/-! ## climbing -/

/-- What holds of the map at every moment. -/
structure Ascends (t : PassTables) (next : Nat → List Nat) (start : Nat) (m : IdMap BlockId) :
    Prop where
  get_start : m[start]? = some start
  listed : ∀ x ∈ m, x ∈ start :: t.order
  /-- Every step of climbing leads on to a node that stands earlier. -/
  up : ∀ {x d}, m[x]? = some d → x ≠ start → d ∈ m ∧ t.place d < t.place x
  /-- Climbing does not pass by a node that all tracks go through. -/
  keeps : ∀ {a x d}, m[x]? = some d → Unavoidable next start a x → a ≠ x →
    Unavoidable next start a d

/-- From the first node one climbs to the second. -/
def Climbs (m : IdMap BlockId) : BlockId → BlockId → Prop := ReflTransGen fun x d => m[x]? = some d

/-- A node to climb to from some others, not beyond any that all tracks to them go through. -/
structure Common (next : Nat → List Nat) (start : Nat) (m : IdMap BlockId) (bs : List BlockId)
    (c : BlockId) : Prop where
  mem : c ∈ m
  climbs : ∀ b ∈ bs, b ∈ m → Climbs m b c
  keeps : ∀ a, (∀ b ∈ bs, b ∈ m → Unavoidable next start a b) → Unavoidable next start a c

variable {m : IdMap BlockId} {a b c d x : Nat}

namespace Common

variable {bs bs' : List BlockId}

theorem congr (h : Common next start m bs c) (hbs : ∀ b ∈ m, b ∈ bs ↔ b ∈ bs') :
    Common next start m bs' c where
  mem := h.mem
  climbs b hb hmem := h.climbs b ((hbs b hmem).2 hb) hmem
  keeps a ha := h.keeps a fun b hb hmem => ha b ((hbs b hmem).1 hb) hmem

theorem swap (h : Common next start m [a, b] c) : Common next start m [b, a] c :=
  h.congr fun e _ => by simp [or_comm]

theorem self (hb : b ∈ m) : Common next start m [b] b where
  mem := hb
  climbs _ he _ := List.mem_singleton.1 he ▸ .refl
  keeps _ ha := ha b (List.mem_singleton_self b) hb

/-- Climbing on with one more node. -/
theorem append (h : Common next start m bs c) (hb : b ∈ m) (hd : Common next start m [b, c] d) :
    Common next start m (bs ++ [b]) d where
  mem := hd.mem
  climbs e he hmem := by
    rcases List.mem_append.1 he with he | he
    · exact (h.climbs e he hmem).trans (hd.climbs c (by simp) h.mem)
    · exact List.mem_singleton.1 he ▸ hd.climbs b (by simp) hb
  keeps a ha := by
    refine hd.keeps a ?_
    simp only [List.forall_mem_cons]
    exact ⟨ha b (by simp), fun _ => h.keeps a fun e he => ha e (List.mem_append_left _ he), by simp⟩

end Common

namespace Ascends

variable (h : t.Ascends next start m)

include h

theorem mem_start : start ∈ m := IdMap.mem_iff_exists_getElem?.2 ⟨start, h.get_start⟩

/-- One climbs on from the node that stands later. -/
theorem exists_step (ht : t.Fits next start) (ha : a ∈ m) (hb : b ∈ m)
    (hlt : t.place b < t.place a) : ∃ d, m.getD a a = d ∧ d ∈ m ∧ t.place d < t.place a ∧
      ∀ c, Common next start m [d, b] c → Common next start m [a, b] c := by
  obtain ⟨d, hd⟩ := IdMap.mem_iff_exists_getElem?.1 ha
  have hne : a ≠ start := by
    rintro rfl
    rw [ht.place_eq a List.mem_cons_self, List.idxOf_cons_self] at hlt
    exact Nat.not_lt_zero _ hlt
  obtain ⟨hmem, hup⟩ := h.up hd hne
  refine ⟨d, IdMap.getD_of_getElem? hd, hmem, hup, fun c hc => ?_⟩
  refine ⟨hc.mem, ?_, fun e he => hc.keeps e ?_⟩
  · simp only [List.forall_mem_cons]
    exact ⟨fun _ => .head hd (hc.climbs d (by simp) hmem), hc.climbs b (by simp), by simp⟩
  · simp only [List.forall_mem_cons] at he ⊢
    refine ⟨fun _ => h.keeps hd (he.1 ha) ?_, he.2⟩
    rintro rfl
    exact Nat.not_lt_of_le (ht.place_le (h.listed b hb) (he.2.1 hb)) hlt

theorem place_le_of_climbs (hclimb : Climbs m a b) : t.place b ≤ t.place a := by
  induction hclimb with
  | refl => exact Nat.le_refl _
  | @tail b c _ hstep ih =>
    by_cases heq : b = start
    · rw [heq, h.get_start, Option.some.injEq] at hstep
      exact hstep ▸ heq ▸ ih
    · exact Nat.le_trans (Nat.le_of_lt (h.up hstep heq).2) ih

/-- Two nodes climb in turn until they meet. -/
theorem meet_spec (ht : t.Fits next start) {steps : Nat} (ha : a ∈ m) (hb : b ∈ m)
    (hsteps : t.place a + t.place b < steps) :
    ∃ c, t.meet m steps a b = some c ∧ Common next start m [a, b] c := by
  induction steps generalizing a b with
  | zero => exact absurd hsteps (Nat.not_lt_zero _)
  | succ steps ih =>
    rw [meet]
    split
    · next heq =>
      subst heq
      refine ⟨a, rfl, ha, fun b hb _ => ?_, fun e he => he a List.mem_cons_self ha⟩
      obtain rfl : b = a := by simpa using hb
      exact .refl
    · next hne =>
      split
      · next hlt =>
        obtain ⟨d, hd, hmem, hup, hstep⟩ := h.exists_step ht ha hb hlt
        obtain ⟨c, hmeet, hc⟩ := ih hmem hb (by omega)
        exact ⟨c, hd ▸ hmeet, hstep c hc⟩
      · split
        · next hlt =>
          obtain ⟨d, hd, hmem, hup, hstep⟩ := h.exists_step ht hb ha hlt
          obtain ⟨c, hmeet, hc⟩ := ih ha hmem (by omega)
          exact ⟨c, hd ▸ hmeet, (hstep c hc.swap).swap⟩
        · have heq : t.place a = t.place b := by omega
          exact absurd (ht.place_inj (h.listed a ha) (h.listed b hb) heq) hne

/-- All nodes of a list that are in the map meet. -/
theorem meetAll_spec (ht : t.Fits next start) (bs : List BlockId) :
    ∃ found, t.meetAll m bs = some found ∧ (found = none → ∀ b ∈ bs, b ∉ m) ∧
      ∀ c, found = some c → Common next start m bs c := by
  induction bs using List.reverseRecOn with
  | nil => exact ⟨none, rfl, by simp, by simp⟩
  | append_singleton bs b ih =>
    obtain ⟨found, hfound, hnone, hsome⟩ := ih
    rw [meetAll, List.foldlM_append, ← meetAll, hfound]
    simp only [Option.bind_eq_bind, Option.bind_some, List.foldlM_cons, List.foldlM_nil,
      Option.pure_def, Option.bind_fun_some]
    by_cases hb : b ∈ m
    · rw [if_pos (TreeMap.contains_iff_mem.2 hb)]
      cases found with
      | none =>
        refine ⟨some b, rfl, by simp, fun c hc => ?_⟩
        obtain rfl := Option.some.inj hc
        refine (Common.self hb).congr fun e he => ?_
        have hnot : e ∉ bs := fun hmem => hnone rfl e hmem he
        simp [hnot]
      | some c =>
        have hc := hsome c rfl
        obtain ⟨d, hmeet, hd⟩ := h.meet_spec ht hb hc.mem (Nat.lt_succ_self _)
        refine ⟨some d, congrArg (Option.map some) hmeet, by simp, fun d' hd' => ?_⟩
        obtain rfl := Option.some.inj hd'
        exact hc.append hb hd
    · rw [if_neg (TreeMap.contains_iff_mem.not.2 hb)]
      have hmem (e : BlockId) (he : e ∈ m) : e ∈ bs ↔ e ∈ bs ++ [b] := by
        have hne : e ≠ b := fun heq => hb (heq ▸ he)
        simp [hne]
      exact ⟨found, rfl, fun hf e he hme => hnone hf e ((hmem e hme).2 he) hme,
        fun c hf => (hsome c hf).congr hmem⟩

/-- A node may be given another one to climb to that stands earlier and is not beyond any that all
tracks go through. -/
theorem insert (hx : x ∈ t.order) (hne : x ≠ start) (hd : d ∈ m) (hup : t.place d < t.place x)
    (hkeeps : ∀ a, Unavoidable next start a x → a ≠ x → Unavoidable next start a d) :
    t.Ascends next start (m.insert x d) := by
  have hmem {y : Nat} (hy : y ∈ m) : y ∈ m.insert x d := TreeMap.mem_insert.2 (.inr hy)
  constructor
  case get_start => simp [TreeMap.getElem?_insert, hne, h.get_start]
  case listed =>
    intro y hy
    rcases TreeMap.mem_insert.1 hy with heq | hy
    · exact LawfulEqCmp.compare_eq_iff_eq.1 heq ▸ List.mem_cons_of_mem start hx
    · exact h.listed y hy
  case up =>
    intro y e hy hstart
    obtain ⟨rfl, rfl⟩ | hy := IdMap.eq_or_of_getElem?_insert hy
    · exact ⟨hmem hd, hup⟩
    · exact (h.up hy hstart).imp_left hmem
  case keeps =>
    intro a y e hy ha hay
    obtain ⟨rfl, rfl⟩ | hy := IdMap.eq_or_of_getElem?_insert hy
    · exact hkeeps a ha hay
    · exact h.keeps hy ha hay

end Ascends

/-! ## what the tracks up to a length tell -/

/-- The node is right as far as tracks of at most `k` nodes can tell. -/
structure Covers (next : Nat → List Nat) (start : Nat) (m : IdMap BlockId) (k x : Nat) : Prop where
  known : ∀ {w}, Track next [start] w x → w.length ≤ k → x ∈ m
  within : ∀ {d w}, m[x]? = some d → Track next [start] w x → w.length ≤ k → d ∈ w

namespace Covers

variable {k : Nat} {m' : IdMap BlockId}

theorem mono {j : Nat} (h : Covers next start m k x) (hj : j ≤ k) : Covers next start m j x where
  known hw hlen := h.known hw (Nat.le_trans hlen hj)
  within hd hw hlen := h.within hd hw (Nat.le_trans hlen hj)

theorem congr (h : Covers next start m k x) (hget : m'[x]? = m[x]?) : Covers next start m' k x where
  known hw hlen := by
    rw [IdMap.mem_iff_exists_getElem?, hget]
    exact IdMap.mem_iff_exists_getElem?.1 (h.known hw hlen)
  within hd hw hlen := h.within (hget.symm.trans hd) hw hlen

/-- What one climbs to is on the tracks. -/
theorem mem_of_climbs (hall : ∀ y, Covers next start m k y) (hclimb : Climbs m x c) {w : List Nat}
    (hw : Track next [start] w x) (hlen : w.length ≤ k) : c ∈ w := by
  induction hclimb using ReflTransGen.head_induction_on generalizing w with
  | refl => exact List.mem_of_mem_head? hw.2.1
  | @head x d hstep _ ih =>
    obtain ⟨u, v, rfl⟩ := List.append_of_mem ((hall x).within hstep hw hlen)
    refine List.mem_append_right u (ih hw.right_of_append (Nat.le_trans ?_ hlen))
    simp

/-- Tracks no longer than the order tell everything. -/
theorem unavoidable (h : Covers next start m k x) (ht : t.Fits next start) (hk : t.order.length < k)
    (hd : m[x]? = some d) : Unavoidable next start d x := by
  intro w hw
  obtain ⟨v, hv, hlen, hsub⟩ := ht.exists_short hw
  exact hsub d (h.within hd hv (Nat.le_trans hlen hk))

theorem mem (h : Covers next start m k x) (ht : t.Fits next start) (hk : t.order.length < k)
    (hx : x ∈ start :: t.order) : x ∈ m := by
  obtain ⟨w, hw⟩ := ht.exists_track x hx
  obtain ⟨v, hv, hlen, -⟩ := ht.exists_short hw
  exact h.known hv (Nat.le_trans hlen hk)

end Covers

/-- Where all nodes before a node meet is right for tracks that are longer by one. -/
theorem Common.covers {k : Nat} {m' : IdMap BlockId} (ht : t.Fits next start) (hx : x ∈ t.order)
    (hall : ∀ y, Covers next start m k y) (hd : Common next start m (t.before.getD x []) d)
    (hget : m'[x]? = some d) : Covers next start m' (k + 1) x where
  known _ _ := IdMap.mem_iff_exists_getElem?.2 ⟨d, hget⟩
  within hget' hw hlen := by
    obtain rfl := Option.some.inj (hget.symm.trans hget')
    obtain ⟨hroot, -⟩ | ⟨y, v, hv, hxy, rfl⟩ := hw.cases
    · exact absurd (List.mem_singleton.1 hroot) (ht.ne_start hx)
    · have hlen : v.length ≤ k := Nat.le_of_succ_le_succ hlen
      have hy : y ∈ start :: t.order := ht.mem_order_of_track hv y (List.mem_of_mem_head? hv.2.1)
      have hclimb := hd.climbs y ((ht.mem_before_iff x hx y hy).2 hxy) ((hall y).known hv hlen)
      exact List.mem_cons_of_mem x (Covers.mem_of_climbs hall hclimb hv hlen)

/-- Outside the order there is nothing to be wrong about. -/
theorem Ascends.covers_of_not_mem {k : Nat} (h : t.Ascends next start m) (ht : t.Fits next start)
    (hx : x ∉ t.order) : Covers next start m k x := by
  by_cases heq : x = start
  · subst heq
    refine ⟨fun _ _ => h.mem_start, fun hd hw _ => ?_⟩
    obtain rfl := Option.some.inj (h.get_start.symm.trans hd)
    exact List.mem_of_mem_head? hw.2.1
  · have hnot : x ∉ start :: t.order := fun hmem => (List.mem_cons.1 hmem).elim heq hx
    refine ⟨fun hw _ => absurd ?_ hnot, fun hd _ _ => absurd ?_ hnot⟩
    · exact ht.mem_order_of_track hw x (List.mem_of_mem_head? hw.2.1)
    · exact h.listed x (IdMap.mem_iff_exists_getElem?.2 ⟨_, hd⟩)

/-- A map that is right for all tracks of at most `k` nodes. -/
structure Stage (t : PassTables) (next : Nat → List Nat) (start k : Nat) (m : IdMap BlockId) : Prop
    extends t.Ascends next start m where
  covers : ∀ y, Covers next start m k y

/-- Before the passes only the start is known, and it is all that tracks of one node get to. -/
theorem Stage.initial :
    t.Stage next start 1 ((∅ : IdMap BlockId).insert start start) := by
  have hget {x d : Nat} (hx : ((∅ : IdMap BlockId).insert start start)[x]? = some d) :
      x = start ∧ d = start := by
    obtain ⟨rfl, rfl⟩ | hx := IdMap.eq_or_of_getElem?_insert hx
    · exact ⟨rfl, rfl⟩
    · simp at hx
  refine { get_start := by simp, listed := ?_, up := ?_, keeps := ?_, covers := ?_ }
  · intro x hx
    obtain ⟨d, hd⟩ := IdMap.mem_iff_exists_getElem?.1 hx
    exact (hget hd).1 ▸ List.mem_cons_self
  · exact fun hx hne => absurd (hget hx).1 hne
  · intro a x d hx ha _
    obtain ⟨rfl, rfl⟩ := hget hx
    exact ha
  · refine fun x => ⟨fun hw hlen => ?_, fun hd hw _ => ?_⟩
    · obtain ⟨hx, -⟩ | ⟨a, v, hv, -, rfl⟩ := hw.cases
      · obtain rfl := List.mem_singleton.1 hx
        simp
      · -- a track of two nodes is too long
        obtain rfl : v = [] :=
          List.eq_nil_of_length_eq_zero (Nat.le_zero.1 (Nat.le_of_succ_le_succ hlen))
        cases hv.2.1
    · obtain ⟨rfl, rfl⟩ := hget hd
      exact List.mem_of_mem_head? hw.2.1

/-- There is only one node that all tracks go through and that climbing does not pass by. -/
theorem Ascends.eq_of_unavoidable {m' : IdMap BlockId} {d' : Nat} (h : t.Ascends next start m)
    (h' : t.Ascends next start m') (ht : t.Fits next start) (hne : x ≠ start)
    (hd : m[x]? = some d) (hd' : m'[x]? = some d') (hall : Unavoidable next start d x)
    (hall' : Unavoidable next start d' x) : d = d' := by
  obtain ⟨hmem, hup⟩ := h.up hd hne
  obtain ⟨hmem', hup'⟩ := h'.up hd' hne
  have hx : d ≠ x := fun heq => Nat.lt_irrefl _ (heq ▸ hup)
  have hx' : d' ≠ x := fun heq => Nat.lt_irrefl _ (heq ▸ hup')
  have hlisted := h.listed d hmem
  have hlisted' := h'.listed d' hmem'
  refine ht.place_inj hlisted hlisted' (Nat.le_antisymm ?_ ?_)
  · exact ht.place_le hlisted' (h'.keeps hd' hall hx)
  · exact ht.place_le hlisted (h.keeps hd hall' hx')

/-- When the nodes before it in the order are in the map, the nodes that lead to a node meet, and
that is right for longer tracks. -/
theorem Stage.exists_meetAll {k : Nat} {done todo : List BlockId} (h : t.Stage next start k m)
    (ht : t.Fits next start) (horder : t.order = done ++ x :: todo) (hdone : ∀ y ∈ done, y ∈ m) :
    ∃ d, t.meetAll m (t.before.getD x []) = some (some d) ∧ t.Ascends next start (m.insert x d) ∧
      Covers next start (m.insert x d) (k + 1) x := by
  have hx : x ∈ t.order := by simp [horder]
  obtain ⟨y, hy, hxy, hlt⟩ := ht.exists_before horder
  have hy : y ∈ m := by
    obtain rfl | hy := List.mem_cons.1 hy
    · exact h.mem_start
    · exact hdone y hy
  have hbefore := (ht.mem_before_iff x hx y (h.listed y hy)).2 hxy
  obtain ⟨found, hfound, hnone, hsome⟩ := h.meetAll_spec ht (t.before.getD x [])
  cases found with
  | none => exact absurd hy (hnone rfl y hbefore)
  | some d =>
    have hd := hsome d rfl
    have hup := Nat.lt_of_le_of_lt (h.place_le_of_climbs (hd.climbs y hbefore hy)) hlt
    refine ⟨d, hfound, ?_, hd.covers ht hx h.covers (by simp)⟩
    refine h.insert hx (ht.ne_start hx) hd.mem hup fun a ha hax => hd.keeps a fun b hb hmem => ?_
    exact ha.of_next hax ((ht.mem_before_iff x hx b (h.listed b hmem)).1 hb)

/-! ## passes -/

/-- What holds while a pass from `m` goes on, after the nodes of `done`. -/
structure Passing (t : PassTables) (next : Nat → List Nat) (start k : Nat) (m : IdMap BlockId)
    (done : List BlockId) (s : IdMap BlockId × Bool) : Prop extends t.Stage next start k s.1 where
  done_spec : ∀ y ∈ done, y ∈ s.1 ∧ Covers next start s.1 (k + 1) y
  unchanged : s.2 = false → s.1 = m
  /-- When tracks tell everything, there is nothing to change. -/
  stable : t.order.length < k → s.2 = false

namespace Passing

variable {k : Nat} {done todo : List BlockId} {s : IdMap BlockId × Bool}

theorem update_spec (h : t.Passing next start k m done s) (ht : t.Fits next start)
    (horder : t.order = done ++ x :: todo) :
    ∃ s', t.update s x = some s' ∧ t.Passing next start k m (done ++ [x]) s' := by
  obtain ⟨d, hmeet, hnew, hcovers⟩ := h.exists_meetAll ht horder fun y hy => (h.done_spec y hy).1
  have hx : x ∈ t.order := by simp [horder]
  have hget : (s.1.insert x d)[x]? = some d := by simp
  rw [update, hmeet, Option.map_some]
  refine ⟨_, rfl, ?_⟩
  dsimp only
  split
  · next hsame =>
    refine ⟨h.toStage, fun z hz => ?_, h.unchanged, h.stable⟩
    rcases List.mem_append.1 hz with hz | hz
    · exact h.done_spec z hz
    · obtain rfl := List.mem_singleton.1 hz
      exact ⟨IdMap.mem_iff_exists_getElem?.2 ⟨d, hsame⟩, hcovers.congr (hsame.trans hget.symm)⟩
  · next hother =>
    have hkept {z : Nat} (hz : z ≠ x) : (s.1.insert x d)[z]? = s.1[z]? := by
      simp [TreeMap.getElem?_insert, Ne.symm hz]
    refine ⟨⟨hnew, fun z => ?_⟩, fun z hz => ?_, fun hc => ?_, fun hk => ?_⟩
    · by_cases hz : z = x
      · exact hz ▸ hcovers.mono (Nat.le_succ k)
      · exact (h.covers z).congr (hkept hz)
    · by_cases hzx : z = x
      · subst hzx
        exact ⟨IdMap.mem_iff_exists_getElem?.2 ⟨d, hget⟩, hcovers⟩
      · have hz := (List.mem_append.1 hz).resolve_right fun hz => hzx (List.mem_singleton.1 hz)
        obtain ⟨hmem, hcov⟩ := h.done_spec z hz
        exact ⟨TreeMap.mem_insert.2 (.inr hmem), hcov.congr (hkept hzx)⟩
    · cases hc
    · -- the old node and the new one are both the immediate dominator
      have hmem := (h.covers x).mem ht hk (List.mem_cons_of_mem start hx)
      obtain ⟨d', hd'⟩ := IdMap.mem_iff_exists_getElem?.1 hmem
      have hall' := (h.covers x).unavoidable ht hk hd'
      have hall := hcovers.unavoidable ht (Nat.lt_succ_of_lt hk) hget
      exact absurd (h.eq_of_unavoidable hnew ht (ht.ne_start hx) hd' hget hall' hall ▸ hd') hother

end Passing

theorem Stage.pass_spec {k : Nat} (h : t.Stage next start k m) (ht : t.Fits next start) :
    ∃ s, t.pass m = some s ∧ t.Stage next start (k + 1) s.1 ∧ (s.2 = false → s.1 = m) ∧
      (t.order.length < k → s.2 = false) := by
  have hall (done todo : List BlockId) (horder : t.order = done ++ todo) (s : IdMap BlockId × Bool)
      (hs : t.Passing next start k m done s) :
      ∃ s', todo.foldlM t.update s = some s' ∧ t.Passing next start k m t.order s' := by
    induction todo generalizing done s with
    | nil =>
      rw [List.append_nil] at horder
      exact ⟨s, rfl, horder ▸ hs⟩
    | cons x todo ih =>
      obtain ⟨s₁, hupdate, hs₁⟩ := hs.update_spec ht horder
      obtain ⟨s', hfold, hs'⟩ := ih (done ++ [x]) (by simp [horder]) s₁ hs₁
      exact ⟨s', by rw [List.foldlM_cons, hupdate]; exact hfold, hs'⟩
  obtain ⟨s, hpass, hs⟩ := hall [] t.order rfl (m, false)
    ⟨h, fun y hy => absurd hy List.not_mem_nil, fun _ => rfl, fun _ => rfl⟩
  refine ⟨s, hpass, ⟨hs.toAscends, fun x => ?_⟩, hs.unchanged, hs.stable⟩
  by_cases hx : x ∈ t.order
  · exact (hs.done_spec x hx).2
  · exact hs.covers_of_not_mem ht hx

/-- A map of immediate dominators: each is unavoidable, and all others come before it. -/
structure Immediate (t : PassTables) (next : Nat → List Nat) (start : Nat)
    (m : IdMap BlockId) : Prop
    extends t.Ascends next start m where
  mem : ∀ x ∈ start :: t.order, x ∈ m
  unavoidable : ∀ {x d}, m[x]? = some d → Unavoidable next start d x

/-- Passes are made until nothing changes. -/
theorem Stage.settle_spec {k passes : Nat} (h : t.Stage next start k m) (ht : t.Fits next start)
    (hk : k ≤ t.order.length + 1) (hpasses : t.order.length + 1 < k + passes) :
    ∃ m', t.settle passes m = some m' ∧ t.Immediate next start m' := by
  induction passes generalizing k m with
  | zero => omega
  | succ passes ih =>
    obtain ⟨s, hpass, hstage, hunchanged, hstable⟩ := h.pass_spec ht
    obtain ⟨m₁, changed⟩ := s
    have hsettle : t.settle (passes + 1) m = if changed then t.settle passes m₁ else some m₁ := by
      rw [settle, hpass]
      rfl
    rw [hsettle]
    cases changed with
    | true =>
      have hle : ¬t.order.length < k := fun hlt => Bool.noConfusion (hstable hlt)
      exact ih hstage (by omega) (by omega)
    | false =>
      obtain rfl := hunchanged rfl
      -- more passes would change nothing either
      have hall (j : Nat) : t.Stage next start (k + j) m₁ := by
        induction j with
        | zero => exact h
        | succ j ih =>
          obtain ⟨s, hpass', hstage', -⟩ := ih.pass_spec ht
          obtain rfl := Option.some.inj (hpass.symm.trans hpass')
          exact hstage'
      have hcovers (j x : Nat) : Covers next start m₁ j x :=
        ((hall j).covers x).mono (Nat.le_add_left ..)
      refine ⟨m₁, rfl, h.toAscends, fun x hx => ?_, fun {x} d hd w hw => ?_⟩
      · obtain ⟨w, hw⟩ := ht.exists_track x hx
        exact (hcovers w.length x).known hw (Nat.le_refl _)
      · exact (hcovers w.length x).within hd hw (Nat.le_refl _)

end PassTables

end DataRace
