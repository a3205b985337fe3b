import DataRace.Proofs.Alias.Dialogue
import DataRace.Proofs.Collection
import Mathlib.Data.List.TakeWhile
import Mathlib.Order.Basic

/-!
# DataRace.Proofs.Alias.Walk

What a walk through the assignment graph leaves behind.

A walk takes up places until none is left.  The places it passed are then
closed: what an edge at a passed place leads to was passed as well or is found,
and where an edge leads through another query, what that query answers is.

* `Behind` and `Ahead` — what is asked for at an edge that is followed backwards
  or forwards;
* `exists_of_yields_walk` — the places that a walk passed are closed, whatever
  its steps ask for;
* `closed_of_pointsTo`, `closed_of_flowsTo`, `answered_of_aliases` — what the
  answer of a query contains, by the kind of the query.
-/

namespace DataRace

open Std

/-! ## answers -/

namespace Reached

variable {r s : Reached} {n m : NodeId} {c d : Context}

theorem holds_iff : r.holds n c = true ↔ ∃ cs, (n, cs) ∈ r.entries.toList ∧ c ∈ cs := by
  simp only [holds, TreeSet.contains_iff_mem, TreeMap.getD_eq_getD_getElem?,
    TreeMap.mem_toList_iff_getElem?_eq_some]
  cases r.entries[n]? with
  | none => simp
  | some cs => simp

theorem not_holds_empty : ¬(∅ : Reached).holds n c = true := by
  rw [holds_iff]
  rintro ⟨cs, hcs, -⟩
  cases hcs

theorem holds_add : (r.add n c).holds m d = true ↔ n = m ∧ c = d ∨ r.holds m d = true := by
  simp only [holds, add, IdMap.getD_insert]
  split
  · next h =>
    subst h
    rw [TreeSet.contains_iff_mem, TreeSet.mem_insert, LawfulEqCmp.compare_eq_iff_eq,
      TreeSet.contains_iff_mem]
    grind
  · grind

theorem holds_addAll {cs : TreeSet Context} :
    (r.addAll n cs).holds m d = true ↔ n = m ∧ d ∈ cs ∨ r.holds m d = true := by
  have hfold (l : List Context) (a : TreeSet Context) :
      d ∈ l.foldl (·.insert ·) a ↔ d ∈ l ∨ d ∈ a := by
    induction l generalizing a with
    | nil => simp
    | cons e l ih =>
      rw [List.foldl_cons, ih, TreeSet.mem_insert, LawfulEqCmp.compare_eq_iff_eq, List.mem_cons]
      grind
  simp only [holds, addAll, IdMap.getD_insert, TreeSet.contains_iff_mem]
  split
  · next h =>
    subst h
    rw [TreeSet.foldl_eq_foldl_toList, hfold, TreeSet.mem_toList]
    grind
  · grind

theorem holds_union : (r.union s).holds n c = true ↔ s.holds n c = true ∨ r.holds n c = true := by
  have hfold (l : List (NodeId × TreeSet Context)) (a : Reached) :
      (l.foldl (fun a e => a.addAll e.1 e.2) a).holds n c = true ↔
        (∃ cs, (n, cs) ∈ l ∧ c ∈ cs) ∨ a.holds n c = true := by
    induction l generalizing a with
    | nil => simp
    | cons e l ih =>
      rw [List.foldl_cons, ih, holds_addAll]
      grind
  rw [union, TreeMap.foldl_eq_foldl_toList, hfold, ← holds_iff]

theorem contains_of_holds (h : r.holds n c = true) : r.contains n = true := by
  obtain ⟨cs, hcs, -⟩ := holds_iff.1 h
  rw [contains, TreeMap.contains_eq_isSome_getElem?, TreeMap.mem_toList_iff_getElem?_eq_some.1 hcs]
  rfl

/-- A node is reached under some context. -/
def Has (r : Reached) (n : NodeId) : Prop := ∃ c, r.holds n c = true

theorem Has.add (h : r.Has n) : (r.add m d).Has n :=
  h.imp fun _ hc => holds_add.2 (.inr hc)

theorem has_add : (r.add n c).Has n := ⟨c, holds_add.2 (.inl ⟨rfl, rfl⟩)⟩

theorem Has.addAll {cs : TreeSet Context} (h : r.Has n) : (r.addAll m cs).Has n :=
  h.imp fun _ hc => holds_addAll.2 (.inr hc)

theorem has_addAll {cs : TreeSet Context} (h : c ∈ cs) : (r.addAll n cs).Has n :=
  ⟨c, holds_addAll.2 (.inl ⟨rfl, h⟩)⟩

theorem Has.union_left (h : r.Has n) : (r.union s).Has n :=
  h.imp fun _ hc => holds_union.2 (.inr hc)

theorem Has.union_right (h : s.Has n) : (r.union s).Has n :=
  h.imp fun _ hc => holds_union.2 (.inl hc)

end Reached

/-! ## trails -/

/-- The places a walk passes and the nodes it finds. -/
structure Trail where
  passes : NodeId → Context → Prop
  finds : NodeId → Prop

instance : Preorder Trail where
  le u v := (∀ n c, u.passes n c → v.passes n c) ∧ ∀ n, u.finds n → v.finds n
  le_refl _ := ⟨fun _ _ => id, fun _ => id⟩
  le_trans _ _ _ h h' := ⟨fun n c => h'.1 n c ∘ h.1 n c, fun n => h'.2 n ∘ h.2 n⟩

/-- What a walk still has to pass, and what it has found. -/
def Walk.trail (w : Walk) : Trail where
  passes n c := (n, c) ∈ w.work
  finds := w.found.Has

namespace Walk

variable {w : Walk}

theorem trail_le_push (places : List (NodeId × Context)) : w.trail ≤ (w.push places).trail :=
  ⟨fun _ _ h => List.mem_append_right _ h, fun _ => id⟩

theorem passes_push {places : List (NodeId × Context)} {n : NodeId} {c : Context}
    (h : (n, c) ∈ places) : (w.push places).trail.passes n c :=
  List.mem_append_left _ (List.mem_reverse.2 h)

theorem trail_le_found {found : Reached} (h : ∀ n, w.found.Has n → found.Has n) :
    w.trail ≤ { w with found }.trail :=
  ⟨fun _ _ => id, h⟩

end Walk

namespace AliasSolver

variable {x : AliasScope} {ask : Query → Demand Reached} {s t : AliasSolver}

/-- Folds only add to a trail, and what a step asks for stays asked for and met. -/
theorem trail_of_yields_foldlM {α β : Type} (trail : β → Trail) (P : Trail → α → Prop)
    {step : β → α → Demand β} (hmono : ∀ {u v a}, u ≤ v → P u a → P v a)
    (hstep : ∀ {b a s b' t}, (step b a).Yields s b' t → trail b ≤ trail b' ∧ P (trail b') a)
    {as : List α} {b b' : β} (h : (as.foldlM step b).Yields s b' t) :
    trail b ≤ trail b' ∧ ∀ a ∈ as, P (trail b') a := by
  induction as generalizing b s with
  | nil =>
    obtain ⟨rfl, -⟩ := Demand.yields_pure_iff.1 h
    exact ⟨le_rfl, fun _ ha => absurd ha List.not_mem_nil⟩
  | cons a as ih =>
    rw [List.foldlM_cons] at h
    obtain ⟨b₁, u, hfirst, hrest⟩ := Demand.yields_bind_iff.1 h
    obtain ⟨hle, hP⟩ := hstep hfirst
    obtain ⟨hle', hP'⟩ := ih hrest
    exact ⟨hle.trans hle', List.forall_mem_cons.2 ⟨hmono hle' hP, hP'⟩⟩

theorem trail_of_foldl {α β : Type} (trail : β → Trail) (P : Trail → α → Prop) (step : β → α → β)
    (hmono : ∀ {u v a}, u ≤ v → P u a → P v a)
    (hstep : ∀ {b a}, trail b ≤ trail (step b a) ∧ P (trail (step b a)) a) (as : List α) (b : β) :
    trail b ≤ trail (as.foldl step b) ∧ ∀ a ∈ as, P (trail (as.foldl step b)) a := by
  have h : (as.foldlM (fun b a => pure (step b a)) b : Demand β).Yields default (as.foldl step b)
      default := by
    rw [List.foldlM_pure]
    rfl
  refine trail_of_yields_foldlM trail P hmono (fun h => ?_) h
  obtain ⟨rfl, -⟩ := Demand.yields_pure_iff.1 h
  exact hstep

/-! ## edges -/

/-- A question has been answered. -/
def Answers (ask : Query → Demand Reached) (q : Query) (r : Reached) : Prop :=
  ∃ s t, (ask q).Yields s r t

/-- The field of an object that a projection leads to is found. -/
def FindsField (x : AliasScope) (k : Nat) (v : Trail) (n : NodeId) : Prop :=
  ∀ o, x.graph.asObj n = some o → ∀ o', x.objs.project o k = .ok o' → v.finds (x.graph.objNode o')

/-- An object and its fields are found; unknown memory has none. -/
def FindsAll (x : AliasScope) (v : Trail) (n : NodeId) : Prop :=
  ∀ o, x.graph.asObj n = some o → ((x.obj o).isUnknown = true → v.finds n) ∧
    ((x.obj o).isUnknown = false → ∀ o' ∈ x.objs.allFields o, v.finds (x.graph.objNode o'))

/-- What is asked for at an edge that is followed backwards. -/
def Behind (x : AliasScope) (ask : Query → Demand Reached) (c : Context) (v : Trail) (e : Edge) :
    Prop :=
  match e.kind with
  | .addr => ∀ o, x.graph.asObj e.src = some o → (x.obj o).isUnknown = false → v.finds e.src
  | .copy => v.passes e.src c
  | .load => ∃ a, Answers ask ⟨.aliases, e.src, c⟩ a ∧ ∀ q d, a.holds q d = true →
      ∀ e' ∈ x.graph.inEdges q, e'.kind = .store → v.passes e'.src d
  | .field k => ∃ a, Answers ask ⟨.pointsTo, e.src, c⟩ a ∧ ∀ n, a.Has n → FindsField x k v n
  | .index => ∃ a, Answers ask ⟨.pointsTo, e.src, c⟩ a ∧ ∀ n, a.Has n → FindsAll x v n
  | _ => True

/-- The answer to a question for the pointers that a value flows to is found. -/
def FindsFlow (ask : Query → Demand Reached) (c : Context) (v : Trail) (n : NodeId) : Prop :=
  ∃ a, Answers ask ⟨.flowsTo none, n, c⟩ a ∧ ∀ m, a.Has m → v.finds m

/-- What is asked for at an edge that is followed forwards. -/
def Ahead (x : AliasScope) (ask : Query → Demand Reached) (offset : Option Nat) (c : Context)
    (v : Trail) (e : Edge) : Prop :=
  match e.kind with
  | .addr | .copy => v.passes e.dst c
  | .store => ∃ a, Answers ask ⟨.aliases, e.dst, c⟩ a ∧ ∀ q d, a.holds q d = true →
      ∀ e' ∈ x.graph.outEdges q, e'.kind = .load → v.passes e'.dst d
  | .field k => (offset = some k → FindsFlow ask c v e.dst) ∧
      (offset ≠ some k → k = 0 → v.passes e.dst c)
  | .index => FindsFlow ask c v e.dst
  | _ => True

section mono

variable {u v : Trail} (huv : u ≤ v)

include huv

theorem FindsField.mono {k : Nat} {n : NodeId} (h : FindsField x k u n) : FindsField x k v n :=
  fun o ho o' ho' => huv.2 _ (h o ho o' ho')

theorem FindsAll.mono {n : NodeId} (h : FindsAll x u n) : FindsAll x v n :=
  fun o ho => ⟨fun hk => huv.2 _ ((h o ho).1 hk), fun hk o' ho' => huv.2 _ ((h o ho).2 hk o' ho')⟩

theorem Behind.mono {c : Context} {e : Edge} (h : Behind x ask c u e) : Behind x ask c v e := by
  obtain ⟨src, dst, kind⟩ := e
  cases kind with
  | addr => exact fun o ho hknown => huv.2 _ (h o ho hknown)
  | copy => exact huv.1 _ _ h
  | load =>
    obtain ⟨a, ha, h⟩ := h
    exact ⟨a, ha, fun q d hq e' he' hk => huv.1 _ _ (h q d hq e' he' hk)⟩
  | field k =>
    obtain ⟨a, ha, h⟩ := h
    exact ⟨a, ha, fun n hn => (h n hn).mono huv⟩
  | index =>
    obtain ⟨a, ha, h⟩ := h
    exact ⟨a, ha, fun n hn => (h n hn).mono huv⟩
  | _ => trivial

theorem FindsFlow.mono {c : Context} {n : NodeId} (h : FindsFlow ask c u n) :
    FindsFlow ask c v n := by
  obtain ⟨a, ha, h⟩ := h
  exact ⟨a, ha, fun m hm => huv.2 _ (h m hm)⟩

theorem Ahead.mono {offset : Option Nat} {c : Context} {e : Edge}
    (h : Ahead x ask offset c u e) : Ahead x ask offset c v e := by
  obtain ⟨src, dst, kind⟩ := e
  cases kind with
  | addr | copy => exact huv.1 _ _ h
  | store =>
    obtain ⟨a, ha, h⟩ := h
    exact ⟨a, ha, fun q d hq e' he' hk => huv.1 _ _ (h q d hq e' he' hk)⟩
  | field k => exact ⟨fun hoff => (h.1 hoff).mono huv, fun hoff hk => huv.1 _ _ (h.2 hoff hk)⟩
  | index => exact FindsFlow.mono huv h
  | _ => trivial

end mono

/-! ## steps -/

variable {offset : Option Nat} {c : Context} {e : Edge} {w w' : Walk}

/-- What is asked for at a node of an answer, asked for an entry of it. -/
def OfEntry (P : Trail → NodeId → Prop) (v : Trail) (e : NodeId × TreeSet Context) : Prop :=
  (∃ c : Context, c ∈ e.2) → P v e.1

theorem forall_has_of_entries {a : Reached} {P : Trail → NodeId → Prop} {v : Trail}
    (h : ∀ e ∈ a.entries.toList, OfEntry P v e) (n : NodeId) (hn : a.Has n) : P v n := by
  obtain ⟨d, hd⟩ := hn
  obtain ⟨cs, hcs, hd⟩ := Reached.holds_iff.1 hd
  exact h (n, cs) hcs ⟨d, hd⟩

/-- The places at the ends of edges of a kind at the nodes of an answer. -/
theorem mem_places {a : Reached} {edges : NodeId → List Edge} {kind : EdgeKind}
    {pick : Edge → NodeId} {n : NodeId} (hn : a.holds n c = true) (he : e ∈ edges n)
    (hk : e.kind = kind) : (pick e, c) ∈ a.entries.toList.flatMap fun entry =>
      ((edges entry.1).filter (·.kind = kind)).flatMap fun e => entry.2.toList.map (pick e, ·) := by
  obtain ⟨cs, hcs, hc⟩ := Reached.holds_iff.1 hn
  refine List.mem_flatMap.2 ⟨(n, cs), hcs, List.mem_flatMap.2 ⟨e, ?_, ?_⟩⟩
  · exact List.mem_filter.2 ⟨he, decide_eq_true hk⟩
  · exact List.mem_map_of_mem (TreeSet.mem_toList.2 hc)

section stepBack

variable {src dst : NodeId} {k : Nat}

theorem stepBack_addr (h : (stepBack x ask c w ⟨src, dst, .addr⟩).Yields s w' t) :
    w.trail ≤ w'.trail ∧ Behind x ask c w'.trail ⟨src, dst, .addr⟩ := by
  simp only [stepBack] at h
  split at h
  · next hnone =>
    obtain ⟨rfl, -⟩ := Demand.yields_pure_iff.1 h
    exact ⟨le_rfl, fun o ho => by rw [hnone] at ho; cases ho⟩
  · next o ho =>
    split at h
    · next hunknown =>
      obtain ⟨rfl, -⟩ := Demand.yields_pure_iff.1 h
      refine ⟨le_rfl, fun o' ho' hknown => ?_⟩
      obtain rfl := Option.some.inj (ho.symm.trans ho')
      rw [hunknown] at hknown
      cases hknown
    · obtain ⟨rfl, -⟩ := Demand.yields_pure_iff.1 h
      exact ⟨Walk.trail_le_found fun _ => .add, fun _ _ _ => Reached.has_add⟩

theorem stepBack_field (h : (stepBack x ask c w ⟨src, dst, .field k⟩).Yields s w' t) :
    w.trail ≤ w'.trail ∧ Behind x ask c w'.trail ⟨src, dst, .field k⟩ := by
  obtain ⟨a, _, ha, h⟩ := Demand.yields_bind_iff.1 h
  have hfold := trail_of_yields_foldlM Walk.trail (OfEntry (FindsField x k))
    (fun huv hP hd => (hP hd).mono huv) (fun {w e s w' t} h => ?_) h
  · exact ⟨hfold.1, a, ⟨_, _, ha⟩, forall_has_of_entries hfold.2⟩
  · dsimp only at h
    split at h
    · next hnone =>
      obtain ⟨rfl, -⟩ := Demand.yields_pure_iff.1 h
      exact ⟨le_rfl, fun _ o ho => by rw [hnone] at ho; cases ho⟩
    · next o ho =>
      split at h
      · next o' ho' =>
        obtain ⟨rfl, -⟩ := Demand.yields_pure_iff.1 h
        refine ⟨Walk.trail_le_found fun _ => .addAll, ?_⟩
        rintro ⟨d, hd⟩ o₁ ho₁ o₂ ho₂
        obtain rfl := Option.some.inj (ho.symm.trans ho₁)
        obtain rfl := Except.ok.inj (ho'.symm.trans ho₂)
        exact Reached.has_addAll hd
      · exact absurd h Demand.not_yields_throw

theorem stepBack_index (h : (stepBack x ask c w ⟨src, dst, .index⟩).Yields s w' t) :
    w.trail ≤ w'.trail ∧ Behind x ask c w'.trail ⟨src, dst, .index⟩ := by
  obtain ⟨a, _, ha, h⟩ := Demand.yields_bind_iff.1 h
  obtain ⟨rfl, -⟩ := Demand.yields_pure_iff.1 h
  rw [TreeMap.foldl_eq_foldl_toList]
  refine And.imp_right (fun h => ⟨a, ⟨_, _, ha⟩, forall_has_of_entries h⟩)
    (trail_of_foldl Walk.trail (OfEntry (FindsAll x)) _ (fun huv hP hd => (hP hd).mono huv)
      (fun {w e} => ?_) a.entries.toList w)
  split
  · next hnone => exact ⟨le_rfl, fun _ o ho => by rw [hnone] at ho; cases ho⟩
  · next o ho =>
    split
    · next hunknown =>
      refine ⟨Walk.trail_le_found fun _ => .addAll, ?_⟩
      rintro ⟨d, hd⟩ o' ho'
      obtain rfl := Option.some.inj (ho.symm.trans ho')
      exact ⟨fun _ => Reached.has_addAll hd, fun hk => absurd hunknown (by simp [hk])⟩
    · next hknown =>
      have hfields := trail_of_foldl Walk.trail
        (fun v o' => (∃ d : Context, d ∈ e.2) → v.finds (x.graph.objNode o'))
        (fun w field => w.add (x.graph.objNode field) e.2)
        (fun huv hP hd => huv.2 _ (hP hd))
        ⟨Walk.trail_le_found fun _ => .addAll, fun h => h.elim fun _ => Reached.has_addAll⟩
        (x.objs.allFields o) w
      refine ⟨hfields.1, fun hd o' ho' => ?_⟩
      obtain rfl := Option.some.inj (ho.symm.trans ho')
      exact ⟨fun hk => absurd hk hknown, fun _ o' ho' => hfields.2 o' ho' hd⟩

/-- A step back adds to the walk what its edge asks for, and takes nothing away. -/
theorem stepBack_spec (h : (stepBack x ask c w e).Yields s w' t) :
    w.trail ≤ w'.trail ∧ Behind x ask c w'.trail e := by
  obtain ⟨src, dst, kind⟩ := e
  cases kind with
  | addr => exact stepBack_addr h
  | copy =>
    obtain ⟨rfl, -⟩ := Demand.yields_pure_iff.1 h
    exact ⟨Walk.trail_le_push _, Walk.passes_push List.mem_cons_self⟩
  | call site | fork site =>
    obtain ⟨rfl, -⟩ := Demand.yields_pure_iff.1 h
    exact ⟨Walk.trail_le_push _, trivial⟩
  | ret site | join site =>
    obtain ⟨rfl, -⟩ := Demand.yields_pure_iff.1 h
    refine ⟨?_, trivial⟩
    split
    · exact le_rfl
    · exact Walk.trail_le_push _
  | load =>
    obtain ⟨places, _, hplaces, h⟩ := Demand.yields_bind_iff.1 h
    obtain ⟨a, _, ha, hplaces⟩ := Demand.yields_bind_iff.1 hplaces
    obtain ⟨rfl, -⟩ := Demand.yields_pure_iff.1 hplaces
    obtain ⟨rfl, -⟩ := Demand.yields_pure_iff.1 h
    exact ⟨Walk.trail_le_push _, a, ⟨_, _, ha⟩,
      fun q d hq e' he' hk => Walk.passes_push (mem_places hq he' hk)⟩
  | store =>
    obtain ⟨rfl, -⟩ := Demand.yields_pure_iff.1 h
    exact ⟨le_rfl, trivial⟩
  | field k => exact stepBack_field h
  | index => exact stepBack_index h

end stepBack

theorem addAnswer_spec {q : Query} (h : (addAnswer ask w q).Yields s w' t) :
    w.trail ≤ w'.trail ∧ ∃ a, Answers ask q a ∧ ∀ n, a.Has n → w'.trail.finds n := by
  obtain ⟨a, _, ha, h⟩ := Demand.yields_bind_iff.1 h
  obtain ⟨rfl, -⟩ := Demand.yields_pure_iff.1 h
  exact ⟨Walk.trail_le_found fun _ => .union_left, a, ⟨_, _, ha⟩, fun _ => .union_right⟩

/-- A step forward adds to the walk what its edge asks for, and takes nothing away. -/
theorem stepForward_spec (h : (stepForward x ask offset c w e).Yields s w' t) :
    w.trail ≤ w'.trail ∧ Ahead x ask offset c w'.trail e := by
  obtain ⟨src, dst, kind⟩ := e
  cases kind with
  | addr | copy =>
    obtain ⟨rfl, -⟩ := Demand.yields_pure_iff.1 h
    exact ⟨Walk.trail_le_push _, Walk.passes_push List.mem_cons_self⟩
  | call site | fork site =>
    obtain ⟨rfl, -⟩ := Demand.yields_pure_iff.1 h
    refine ⟨?_, trivial⟩
    split
    · exact le_rfl
    · exact Walk.trail_le_push _
  | ret site | join site =>
    obtain ⟨rfl, -⟩ := Demand.yields_pure_iff.1 h
    exact ⟨Walk.trail_le_push _, trivial⟩
  | load =>
    obtain ⟨rfl, -⟩ := Demand.yields_pure_iff.1 h
    exact ⟨le_rfl, trivial⟩
  | store =>
    obtain ⟨places, _, hplaces, h⟩ := Demand.yields_bind_iff.1 h
    obtain ⟨a, _, ha, hplaces⟩ := Demand.yields_bind_iff.1 hplaces
    obtain ⟨rfl, -⟩ := Demand.yields_pure_iff.1 hplaces
    obtain ⟨rfl, -⟩ := Demand.yields_pure_iff.1 h
    exact ⟨Walk.trail_le_push _, a, ⟨_, _, ha⟩,
      fun q d hq e' he' hk => Walk.passes_push (mem_places hq he' hk)⟩
  | field k =>
    simp only [stepForward] at h
    split at h
    · next hskip =>
      obtain ⟨rfl, -⟩ := Demand.yields_pure_iff.1 h
      -- without an offset, a constant other than zero is not followed, and not asked for
      simp only [Bool.and_eq_true, Option.isNone_iff_eq_none, decide_eq_true_eq] at hskip
      obtain ⟨rfl, hk⟩ := hskip
      exact ⟨le_rfl, nofun, fun _ h0 => by omega⟩
    · split at h
      · next hoff =>
        obtain ⟨hle, hfinds⟩ := addAnswer_spec h
        exact ⟨hle, fun _ => hfinds, fun hne => absurd hoff hne⟩
      · next hoff =>
        split at h
        · obtain ⟨rfl, -⟩ := Demand.yields_pure_iff.1 h
          exact ⟨Walk.trail_le_push _, fun h => absurd h hoff,
            fun _ _ => Walk.passes_push List.mem_cons_self⟩
        · next hk =>
          obtain ⟨rfl, -⟩ := Demand.yields_pure_iff.1 h
          exact ⟨le_rfl, fun h => absurd h hoff, fun _ h0 => absurd h0 hk⟩
  | index => exact addAnswer_spec h

/-! ## walks -/

/-- The trail of a walk that has passed some places. -/
def trailAfter (seen : Reached) (w : Walk) : Trail where
  passes n c := seen.holds n c = true ∨ (n, c) ∈ w.work
  finds := w.found.Has

/-- The places that a walk passed are closed: at each of them, what a step asks for is passed or
found. -/
theorem exists_of_yields_walk {step : NodeId → Context → Walk → Demand Walk}
    {P : Trail → NodeId → Context → Prop} (hmono : ∀ {u v n c}, u ≤ v → P u n c → P v n c)
    (hstep : ∀ {n c w s w' t}, (step n c w).Yields s w' t → w.trail ≤ w'.trail ∧ P w'.trail n c)
    {steps : Nat} {seen r : Reached} (h : (walk step steps seen w).Yields s r t)
    (hseen : ∀ n c, seen.holds n c = true → P (trailAfter seen w) n c) :
    ∃ v : Trail, trailAfter seen w ≤ v ∧ v.finds = r.Has ∧ ∀ n c, v.passes n c → P v n c := by
  induction steps generalizing seen w s with
  | zero => exact absurd h Demand.not_yields_throw
  | succ steps ih =>
    simp only [walk] at h
    split at h
    · next hnone =>
      obtain ⟨rfl, -⟩ := Demand.yields_pure_iff.1 h
      have hall : ∀ n c, (trailAfter seen w).passes n c → seen.holds n c = true := by
        rintro n c (hc | hc)
        · exact hc
        · exact List.dropWhile_eq_nil_iff.1 hnone (n, c) hc
      exact ⟨trailAfter seen w, le_rfl, rfl, fun n c hc => hseen n c (hall n c hc)⟩
    · next n c rest hnext =>
      obtain ⟨_, _, -, h⟩ := Demand.yields_bind_iff.1 h
      obtain ⟨w', _, hw', h⟩ := Demand.yields_bind_iff.1 h
      obtain ⟨hle, hP⟩ := hstep hw'
      -- what was to be passed is seen already, or the place taken up now, or still to be passed
      have hwork (m : NodeId) (d : Context) (hd : (m, d) ∈ w.work) :
          seen.holds m d = true ∨ (m, d) = (n, c) ∨ (m, d) ∈ rest := by
        rw [← List.takeWhile_append_dropWhile (p := _) (l := w.work), hnext, List.mem_append] at hd
        rcases hd with hd | hd
        · have hholds := List.mem_takeWhile_imp hd
          exact .inl hholds
        · exact .inr (List.mem_cons.1 hd)
      have hnew : w'.trail ≤ trailAfter (seen.add n c) w' := ⟨fun _ _ => .inr, fun _ => id⟩
      have hafter : trailAfter seen w ≤ trailAfter (seen.add n c) w' := by
        refine ⟨fun m d hd => ?_, hle.2⟩
        rcases hd with hd | hd
        · exact .inl (Reached.holds_add.2 (.inr hd))
        · rcases hwork m d hd with hd | hd | hd
          · exact .inl (Reached.holds_add.2 (.inr hd))
          · cases hd
            exact .inl (Reached.holds_add.2 (.inl ⟨rfl, rfl⟩))
          · exact .inr (hle.1 m d hd)
      obtain ⟨v, hv, hfinds, hclosed⟩ := ih h fun m d hd => by
        rcases Reached.holds_add.1 hd with ⟨rfl, rfl⟩ | hd
        · exact hmono hnew hP
        · exact hmono hafter (hseen m d hd)
      exact ⟨v, hafter.trans hv, hfinds, hclosed⟩

/-- What is asked for at a place on the way back. -/
def BehindAll (x : AliasScope) (ask : Query → Demand Reached) (v : Trail) (n : NodeId)
    (c : Context) : Prop :=
  (x.isUnknownSource n = true → v.finds x.unknownNode) ∧
    ∀ e ∈ x.graph.inEdges n, Behind x ask c v e

/-- What is asked for at a place on the way forward. -/
def AheadAll (x : AliasScope) (ask : Query → Demand Reached) (offset : Option Nat) (v : Trail)
    (n : NodeId) (c : Context) : Prop :=
  (offset = none → isDereferenced x n = true → v.finds n) ∧
    ∀ e ∈ x.graph.outEdges n, Ahead x ask offset c v e

theorem takeBack_spec {n : NodeId} (h : (takeBack x ask n c w).Yields s w' t) :
    w.trail ≤ w'.trail ∧ BehindAll x ask w'.trail n c := by
  obtain ⟨hle, hall⟩ := trail_of_yields_foldlM Walk.trail (Behind x ask c)
    (fun huv => Behind.mono huv) stepBack_spec h
  split at hle
  · exact ⟨(Walk.trail_le_found fun _ => .add).trans hle,
      fun _ => hle.2 _ Reached.has_add, hall⟩
  · next hknown => exact ⟨hle, fun hunknown => absurd hunknown hknown, hall⟩

theorem takeForward_spec {n : NodeId} (h : (takeForward x ask offset n c w).Yields s w' t) :
    w.trail ≤ w'.trail ∧ AheadAll x ask offset w'.trail n c := by
  obtain ⟨hle, hall⟩ := trail_of_yields_foldlM Walk.trail (Ahead x ask offset c)
    (fun huv => Ahead.mono huv) stepForward_spec h
  split at hle
  · exact ⟨(Walk.trail_le_found fun _ => .add).trans hle,
      fun _ _ => hle.2 _ Reached.has_add, hall⟩
  · next hnot =>
    refine ⟨hle, fun hoff hderef => absurd ?_ hnot, hall⟩
    rw [hoff, hderef]
    rfl

/-! ## queries -/

variable {steps : Nat} {n : NodeId} {r : Reached}

/-- What a points-to query passes and finds is closed against the edges. -/
theorem closed_of_pointsTo (h : (body x ask steps ⟨.pointsTo, n, c⟩).Yields s r t) :
    ∃ v : Trail, v.passes n c ∧ v.finds = r.Has ∧ ∀ m d, v.passes m d → BehindAll x ask v m d := by
  simp only [body] at h
  split at h
  · obtain ⟨found, _, hwalk, h⟩ := Demand.yields_bind_iff.1 h
    obtain ⟨rfl, -⟩ := Demand.yields_pure_iff.1 h
    obtain ⟨v, hv, hfinds, hclosed⟩ := exists_of_yields_walk (P := BehindAll x ask)
      (fun huv hP => ⟨fun hn => huv.2 _ (hP.1 hn), fun e he => (hP.2 e he).mono huv⟩)
      takeBack_spec hwalk (fun _ _ hd => absurd hd Reached.not_holds_empty)
    exact ⟨v, hv.1 n c (.inr List.mem_cons_self), hfinds, hclosed⟩
  · exact absurd h Demand.not_yields_throw

/-- What a flows-to query passes and finds is closed along the edges. -/
theorem closed_of_flowsTo (h : (body x ask steps ⟨.flowsTo offset, n, c⟩).Yields s r t) :
    ∃ v : Trail, v.passes n c ∧ v.finds = r.Has ∧
      ∀ m d, v.passes m d → AheadAll x ask offset v m d := by
  obtain ⟨found, _, hwalk, h⟩ := Demand.yields_bind_iff.1 h
  obtain ⟨rfl, -⟩ := Demand.yields_pure_iff.1 h
  obtain ⟨v, hv, hfinds, hclosed⟩ := exists_of_yields_walk (P := AheadAll x ask offset)
    (fun huv hP => ⟨fun hoff hn => huv.2 _ (hP.1 hoff hn), fun e he => (hP.2 e he).mono huv⟩)
    takeForward_spec hwalk (fun _ _ hd => absurd hd Reached.not_holds_empty)
  exact ⟨v, hv.1 n c (.inr List.mem_cons_self), hfinds, hclosed⟩

/-- The pointers to an object of known memory are asked for. -/
theorem mem_flowQueries {cs : TreeSet Context} {o : ObjId} (hn : x.graph.asObj n = some o)
    (hknown : (x.obj o).isUnknown = false) (hc : c ∈ cs) :
    ∃ d, ⟨.flowsTo (x.obj o).field,
      if (x.obj o).field.isSome then x.graph.objNode (x.obj o).base else n, d⟩ ∈
        flowQueries x n cs := by
  simp only [flowQueries, hn, hknown, if_false, Bool.false_eq_true]
  by_cases hglobal : (x.obj o).isGlobal = true
  · rw [if_pos hglobal]
    exact ⟨.global, List.mem_map_of_mem List.mem_cons_self⟩
  · rw [if_neg hglobal]
    exact ⟨c, List.mem_map_of_mem (TreeSet.mem_toList.2 hc)⟩

/-- An alias query asks for the pointers to all that its pointer points to. -/
theorem answered_of_aliases (h : (body x ask steps ⟨.aliases, n, c⟩).Yields s r t) :
    ∃ a, Answers ask ⟨.pointsTo, n, c⟩ a ∧ ∀ m o, a.Has m → x.graph.asObj m = some o →
      (x.obj o).isUnknown = false → ∃ d b, Answers ask ⟨.flowsTo (x.obj o).field,
        if (x.obj o).field.isSome then x.graph.objNode (x.obj o).base else m, d⟩ b ∧
          ∀ m', b.Has m' → r.Has m' := by
  obtain ⟨a, _, ha, h⟩ := Demand.yields_bind_iff.1 h
  obtain ⟨found, _, hfold, h⟩ := Demand.yields_bind_iff.1 h
  obtain ⟨rfl, -⟩ := Demand.yields_pure_iff.1 h
  obtain ⟨-, hall⟩ := trail_of_yields_foldlM (fun found : Reached => ⟨fun _ _ => False, found.Has⟩)
    (fun v q => ∃ b, Answers ask q b ∧ ∀ m', b.Has m' → v.finds m')
    (fun huv hb => hb.imp fun b hb => ⟨hb.1, fun m hm => huv.2 _ (hb.2 m hm)⟩)
    (fun hstep => by
      obtain ⟨b, _, hb, hstep⟩ := Demand.yields_bind_iff.1 hstep
      obtain ⟨rfl, -⟩ := Demand.yields_pure_iff.1 hstep
      exact ⟨⟨fun _ _ => id, fun _ => .union_left⟩, b, ⟨_, _, hb⟩, fun _ => .union_right⟩) hfold
  refine ⟨a, ⟨_, _, ha⟩, fun m o hm ho hknown => ?_⟩
  obtain ⟨d, hd⟩ := hm
  obtain ⟨cs, hcs, hd⟩ := Reached.holds_iff.1 hd
  obtain ⟨d', hq⟩ := mem_flowQueries ho hknown hd
  exact ⟨d', hall _ (List.mem_flatMap.2 ⟨(m, cs), hcs, hq⟩)⟩

end AliasSolver

end DataRace
