import DataRace.Proofs.Flow.Search

/-!
# DataRace.Proofs.Flow.ReversePostorder

The order in which a depth-first search leaves the nodes, read backwards.

A node that is entered and not yet left stands on the path the search has come.
When a node is left, everything after it was seen, and the node it was entered
from is still on the path and will be left later:

* `Search.Leaving` is what is known while the search goes on;
* `Search.Leaving.visit` — what visiting one node keeps;
* `RootedOrder`, `rootedOrder_reversePostorder` — the whole search: the start
  comes first, each other node after one that leads to it, and every node that
  follows a listed one is listed.
-/

namespace DataRace

namespace Search

/-- The nodes on the path are seen and not yet left. -/
structure Leaving (next : Nat → List Nat) (path : List Nat) (seen : IdSet) (out : List Nat) :
    Prop where
  mem_seen_iff : ∀ {x}, x ∈ seen ↔ x ∈ out ∨ x ∈ path
  nodup : out.Nodup
  not_mem_path : ∀ x ∈ out, x ∉ path
  /-- What follows a node that is left was seen. -/
  closed : ∀ x ∈ out, ∀ y ∈ next x, y ∈ seen
  /-- A node is entered from one that is left later. -/
  entered : ∀ {before x after}, out = before ++ x :: after → ∃ y ∈ before ++ path, x ∈ next y

theorem unseen_mono {n : Nat} {seen seen' : IdSet} (h : ∀ x ∈ seen, x ∈ seen') :
    unseen n seen' ≤ unseen n seen := by
  refine List.countP_mono_left fun x _ hx => ?_
  simp only [Bool.not_eq_true', ← Bool.not_eq_true, Std.TreeSet.contains_iff_mem] at hx ⊢
  exact fun hmem => hx (h x hmem)

namespace Leaving

variable {next : Nat → List Nat} {path out : List Nat} {seen : IdSet} {v : Nat}

/-- Entering a node puts it on the path. -/
theorem enter (h : Leaving next path seen out) (hv : v ∉ seen) :
    Leaving next (v :: path) (seen.insert v) out where
  mem_seen_iff {x} := by
    rw [IdSet.mem_insert, h.mem_seen_iff, List.mem_cons, eq_comm (a := v)]
    exact or_left_comm
  nodup := h.nodup
  not_mem_path x hx hpath := by
    obtain rfl | hpath := List.mem_cons.1 hpath
    · exact hv (h.mem_seen_iff.2 (.inl hx))
    · exact h.not_mem_path x hx hpath
  closed x hx y hy := IdSet.mem_insert.2 (.inr (h.closed x hx y hy))
  entered hout := by
    obtain ⟨y, hy, hnext⟩ := h.entered hout
    refine ⟨y, ?_, hnext⟩
    obtain hy | hy := List.mem_append.1 hy
    · exact List.mem_append_left _ hy
    · exact List.mem_append_right _ (List.mem_cons_of_mem v hy)

/-- A node is left when all that follows is seen. -/
theorem leave (h : Leaving next (v :: path) seen out) (hnodup : (v :: path).Nodup)
    (hfrom : ∃ y ∈ path, v ∈ next y) (hnext : ∀ y ∈ next v, y ∈ seen) :
    Leaving next path seen (v :: out) where
  mem_seen_iff {x} := by
    rw [h.mem_seen_iff, List.mem_cons, List.mem_cons]
    exact or_left_comm.trans or_assoc.symm
  nodup := List.nodup_cons.2 ⟨fun hv => h.not_mem_path v hv List.mem_cons_self, h.nodup⟩
  not_mem_path x hx := by
    obtain rfl | hx := List.mem_cons.1 hx
    · exact (List.nodup_cons.1 hnodup).1
    · exact fun hpath => h.not_mem_path x hx (List.mem_cons_of_mem v hpath)
  closed x hx := by
    obtain rfl | hx := List.mem_cons.1 hx
    · exact hnext
    · exact h.closed x hx
  entered {before x after} hout := by
    cases before with
    | nil =>
      obtain ⟨y, hy, hv⟩ := hfrom
      obtain ⟨rfl, -⟩ := List.cons.inj hout
      exact ⟨y, hy, hv⟩
    | cons w before =>
      obtain ⟨rfl, hrest⟩ := List.cons.inj hout
      obtain ⟨y, hy, hx⟩ := h.entered hrest
      refine ⟨y, ?_, hx⟩
      simp only [List.mem_append, List.mem_cons] at hy ⊢
      exact or_left_comm.trans or_assoc.symm |>.1 hy

/-- Visiting nodes that follow the path in turn, if that is what visiting one of them does. -/
theorem visitAll {n depth : Nat} (hvisit : ∀ {path out : List Nat} {seen : IdSet} {v : Nat},
      Leaving next path seen out → path.Nodup → (∃ y ∈ path, v ∈ next y) → unseen n seen < depth →
        let r := Search.leave next depth (seen, out) v
        Leaving next path r.1 r.2 ∧ v ∈ r.1 ∧ ∀ x ∈ seen, x ∈ r.1)
    (vs : List Nat) (h : Leaving next path seen out) (hpath : path.Nodup)
    (hfrom : ∀ v ∈ vs, ∃ y ∈ path, v ∈ next y) (hdepth : unseen n seen < depth) :
    let r := vs.foldl (Search.leave next depth) (seen, out)
    Leaving next path r.1 r.2 ∧ (∀ v ∈ vs, v ∈ r.1) ∧ ∀ x ∈ seen, x ∈ r.1 := by
  induction vs generalizing seen out with
  | nil => exact ⟨h, fun v hv => absurd hv List.not_mem_nil, fun x hx => hx⟩
  | cons v vs ih =>
    obtain ⟨hstep, hv, hkept⟩ := hvisit h hpath (hfrom v List.mem_cons_self) hdepth
    obtain ⟨hend, hvs, hkept'⟩ := ih hstep (fun w hw => hfrom w (List.mem_cons_of_mem v hw))
      (Nat.lt_of_le_of_lt (unseen_mono hkept) hdepth)
    refine ⟨hend, fun w hw => ?_, fun x hx => hkept' x (hkept x hx)⟩
    obtain rfl | hw := List.mem_cons.1 hw
    · exact hkept' w hv
    · exact hvs w hw

/-- Visiting a node that follows the path leaves it and all that is entered on the way. -/
theorem visit {n : Nat} (hlt : ∀ x, ∀ y ∈ next x, y < n) {depth : Nat}
    (h : Leaving next path seen out) (hpath : path.Nodup) (hfrom : ∃ y ∈ path, v ∈ next y)
    (hdepth : unseen n seen < depth) :
    let r := Search.leave next depth (seen, out) v
    Leaving next path r.1 r.2 ∧ v ∈ r.1 ∧ ∀ x ∈ seen, x ∈ r.1 := by
  induction depth generalizing path seen out v with
  | zero => omega
  | succ depth ih =>
    rw [Search.leave]
    split
    · next hv => exact ⟨h, Std.TreeSet.contains_iff_mem.1 hv, fun x hx => hx⟩
    · next hv =>
      have hnot : v ∉ seen := fun hmem => hv (Std.TreeSet.contains_iff_mem.2 hmem)
      obtain ⟨u, hu, hvu⟩ := hfrom
      have hless := unseen_insert (hlt u v hvu) (Bool.eq_false_iff.2 hv)
      have hnodup : (v :: path).Nodup :=
        List.nodup_cons.2 ⟨fun hmem => hnot (h.mem_seen_iff.2 (.inr hmem)), hpath⟩
      obtain ⟨hend, hnext, hkept⟩ := visitAll ih (next v) (h.enter hnot) hnodup
        (fun w hw => ⟨v, List.mem_cons_self, hw⟩) (by omega)
      refine ⟨hend.leave hnodup ⟨u, hu, hvu⟩ hnext, ?_, fun x hx => ?_⟩
      · exact hkept v (IdSet.mem_insert.2 (.inl rfl))
      · exact hkept x (IdSet.mem_insert.2 (.inr hx))

end Leaving

end Search

/-! ## the whole search -/

/-- An order of the nodes that follow from a start: the start comes first, and each other node
after one that leads to it. -/
structure RootedOrder (next : Nat → List Nat) (start : Nat) (order : List Nat) : Prop where
  nodup : order.Nodup
  head : order.head? = some start
  closed : ∀ x ∈ order, ∀ y ∈ next x, y ∈ order
  entered : ∀ {before x after}, order = before ++ x :: after → x ≠ start → ∃ y ∈ before, x ∈ next y

theorem rootedOrder_reversePostorder {n start : Nat} {next : Nat → List Nat} (hstart : start < n)
    (hlt : ∀ x, ∀ y ∈ next x, y < n) :
    RootedOrder next start (reversePostorder n next start) := by
  have hless : Search.unseen n ((∅ : IdSet).insert start) < n := by
    have hempty : (∅ : IdSet).contains start = false := by simp
    have hone := Search.unseen_insert hstart hempty
    have hall : Search.unseen n ∅ ≤ n := Nat.le_trans List.countP_le_length (by simp)
    omega
  have hinit : Search.Leaving next [start] ((∅ : IdSet).insert start) [] := by
    constructor
    case mem_seen_iff =>
      intro x
      rw [IdSet.mem_insert]
      simp [eq_comm]
    all_goals simp
  obtain ⟨hend, hnext, -⟩ := Search.Leaving.visitAll (Search.Leaving.visit hlt) (next start) hinit
    (List.pairwise_singleton ..) (fun v hv => ⟨start, List.mem_cons_self, hv⟩) hless
  have horder : reversePostorder n next start = start :: ((next start).foldl
      (Search.leave next n) ((∅ : IdSet).insert start, [])).2 := by
    rw [reversePostorder, Search.leave]
    rfl
  rw [horder]
  constructor
  case nodup =>
    exact List.nodup_cons.2
      ⟨fun hmem => hend.not_mem_path start hmem List.mem_cons_self, hend.nodup⟩
  case head => rfl
  case closed =>
    intro x hx y hy
    have hseen : y ∈ ((next start).foldl (Search.leave next n)
        ((∅ : IdSet).insert start, [])).1 := by
      obtain rfl | hx := List.mem_cons.1 hx
      · exact hnext y hy
      · exact hend.closed x hx y hy
    obtain hout | hpath := hend.mem_seen_iff.1 hseen
    · exact List.mem_cons_of_mem start hout
    · exact List.mem_singleton.1 hpath ▸ List.mem_cons_self
  case entered =>
    intro before x after hout hne
    cases before with
    | nil => exact absurd (List.cons.inj hout).1.symm hne
    | cons w before =>
      obtain ⟨rfl, hrest⟩ := List.cons.inj hout
      obtain ⟨y, hy, hx⟩ := hend.entered hrest
      refine ⟨y, ?_, hx⟩
      simp only [List.mem_append, List.mem_cons, List.not_mem_nil, or_false] at hy ⊢
      exact hy.symm

end DataRace
