import DataRace.Collection
import Mathlib.Data.List.Perm.Subperm
import Mathlib.Tactic.ByContra

/-!
# DataRace.Proofs.Collection

Membership in sets and maps that are built by folds.

The collections of the library are filled one element at a time.  The lemmas
here say what such a fold holds in the end, so that later proofs talk about
membership only.
-/

namespace DataRace

open Std

theorem any_iff_exists_mem {α : Type} {cmp : α → α → Ordering} [TransCmp cmp] [LawfulEqCmp cmp]
    {s : TreeSet α cmp} {f : α → Bool} : s.any f = true ↔ ∃ x ∈ s, f x = true := by
  have hlist : s.any f = s.toList.any f := by
    have h : s.any f = Id.run (do
        for x in s do
          if f x then return true
        return false) := rfl
    rw [h, TreeSet.forIn_eq_forIn_toList]
    induction s.toList with
    | nil => rfl
    | cons x xs ih =>
      cases hf : f x with
      | true => simp [hf]
      | false => simpa [hf] using ih
  rw [hlist, List.any_eq_true]
  simp only [TreeSet.mem_toList]

namespace IdSet

theorem mem_insert {s : IdSet} {x y : Nat} : x ∈ s.insert y ↔ y = x ∨ x ∈ s := by
  rw [TreeSet.mem_insert, LawfulEqCmp.compare_eq_iff_eq]

theorem mem_singleton {x y : Nat} : x ∈ ({y} : IdSet) ↔ x = y := by
  change x ∈ (∅ : IdSet).insert y ↔ x = y
  rw [mem_insert]
  simp [eq_comm]

theorem mem_filter {s : IdSet} {f : Nat → Bool} {x : Nat} :
    x ∈ s.filter f ↔ x ∈ s ∧ f x = true := by
  rw [← TreeSet.mem_toList, TreeSet.toList_filter, List.mem_filter, TreeSet.mem_toList]

theorem mem_foldl_insert {xs : List Nat} {s : IdSet} {x : Nat} :
    x ∈ xs.foldl (·.insert ·) s ↔ x ∈ s ∨ x ∈ xs := by
  induction xs generalizing s with
  | nil => simp
  | cons y ys ih =>
    rw [List.foldl_cons, ih, TreeSet.mem_insert, List.mem_cons]
    grind

theorem nodup_toList (s : IdSet) : s.toList.Nodup :=
  TreeSet.distinct_toList.imp fun hne heq => hne (LawfulEqCmp.compare_eq_iff_eq.2 heq)

/-- A set within another one that is no larger is all of it. -/
theorem mem_of_size_le {s t : IdSet} (h : ∀ x ∈ s, x ∈ t) (hsize : t.size ≤ s.size) :
    ∀ x ∈ t, x ∈ s := by
  have hsub : s.toList ⊆ t.toList :=
    fun x hx => TreeSet.mem_toList.2 (h x (TreeSet.mem_toList.1 hx))
  rw [← TreeSet.length_toList, ← TreeSet.length_toList] at hsize
  have hperm := ((nodup_toList s).subperm hsub).perm_of_length_le hsize
  intro x hx
  rw [← TreeSet.mem_toList, hperm.mem_iff, TreeSet.mem_toList]
  exact hx

theorem size_le_size_foldl_insert (xs : List Nat) (s : IdSet) :
    s.size ≤ (xs.foldl (·.insert ·) s).size := by
  induction xs generalizing s with
  | nil => exact Nat.le_refl _
  | cons x xs ih => exact Nat.le_trans TreeSet.size_le_size_insert (ih _)

/-- A set that is no larger after insertions had the elements before. -/
theorem mem_of_size_foldl_insert {xs : List Nat} {s : IdSet}
    (h : (xs.foldl (·.insert ·) s).size = s.size) : ∀ x ∈ xs, x ∈ s := by
  induction xs generalizing s with
  | nil => nofun
  | cons y ys ih =>
    have hle := size_le_size_foldl_insert ys (s.insert y)
    rw [List.foldl_cons] at h
    have hsize := TreeSet.size_insert (t := s) (k := y)
    have hy : y ∈ s := by
      by_contra hnot
      rw [if_neg (TreeSet.contains_iff_mem.not.2 hnot)] at hsize
      omega
    rw [if_pos (TreeSet.contains_iff_mem.2 hy)] at hsize
    intro x hx
    obtain rfl | hx := List.mem_cons.1 hx
    · exact hy
    · have hx' := ih (h.trans hsize.symm) x hx
      rw [IdSet.mem_insert] at hx'
      exact hx'.elim (fun heq => heq ▸ hy) id

theorem any_iff {s : IdSet} {f : Nat → Bool} : s.any f = true ↔ ∃ x ∈ s, f x = true :=
  any_iff_exists_mem

theorem mem_foldl_union {β : Type} {f : β → IdSet} {es : List β} {u : IdSet} {q : Nat} :
    q ∈ es.foldl (fun u e => u ∪ f e) u ↔ q ∈ u ∨ ∃ e ∈ es, q ∈ f e := by
  induction es generalizing u with
  | nil => simp
  | cons e es ih => simp [ih, TreeSet.mem_union_iff, or_assoc]

/-- The first element of an ascending set that passes a test is the least one. -/
theorem find?_toList_iff {s : IdSet} {q : Nat → Bool} {a : Nat} :
    s.toList.find? q = some a ↔ a ∈ s ∧ q a = true ∧ ∀ b ∈ s, q b = true → a ≤ b := by
  have hleast (a : Nat) (h : s.toList.find? q = some a) : ∀ b ∈ s, q b = true → a ≤ b := by
    obtain ⟨-, before, after, heq, hbefore⟩ := List.find?_eq_some_iff_append.1 h
    intro b hb hq
    have hsorted := TreeSet.ordered_toList (t := s)
    rw [← TreeSet.mem_toList, heq, List.mem_append, List.mem_cons] at hb
    rw [heq, List.pairwise_append, List.pairwise_cons] at hsorted
    rcases hb with hb | rfl | hb
    · simpa [hq] using hbefore b hb
    · exact Nat.le_refl b
    · exact Nat.le_of_lt (Nat.compare_eq_lt.1 (hsorted.2.1.1 b hb))
  constructor
  · intro h
    exact ⟨TreeSet.mem_toList.1 (List.mem_of_find?_eq_some h), List.find?_some h, hleast a h⟩
  · rintro ⟨ha, hq, hall⟩
    have hsome : (s.toList.find? q).isSome := List.find?_isSome.2 ⟨a, TreeSet.mem_toList.2 ha, hq⟩
    obtain ⟨d, hd⟩ := Option.isSome_iff_exists.1 hsome
    have hle := hleast d hd a ha hq
    have hge := hall d (TreeSet.mem_toList.1 (List.mem_of_find?_eq_some hd)) (List.find?_some hd)
    rw [hd, Nat.le_antisymm hle hge]

end IdSet

namespace IdMap

variable {α : Type}

theorem any_eq_any_toList (m : IdMap α) (f : Nat → α → Bool) :
    m.any f = m.toList.any fun (k, a) => f k a := by
  have h : m.any f = Id.run (do
      for (k, a) in m do
        if f k a then return true
      return false) := rfl
  rw [h, TreeMap.forIn_eq_forIn_toList]
  induction m.toList with
  | nil => rfl
  | cons e es ih =>
    obtain ⟨k, a⟩ := e
    cases hf : f k a with
    | true => simp [hf]
    | false => simpa [hf] using ih

theorem any_iff {m : IdMap α} {f : Nat → α → Bool} :
    m.any f = true ↔ ∃ (k : Nat) (a : α), m[k]? = some a ∧ f k a = true := by
  rw [any_eq_any_toList, List.any_eq_true]
  constructor
  · rintro ⟨⟨k, a⟩, hmem, hf⟩
    exact ⟨k, a, TreeMap.mem_toList_iff_getElem?_eq_some.1 hmem, hf⟩
  · rintro ⟨k, a, hget, hf⟩
    exact ⟨(k, a), TreeMap.mem_toList_iff_getElem?_eq_some.2 hget, hf⟩

/-- The values of a map are its second components in key order. -/
theorem values_eq_map_toList (m : IdMap α) : m.values = m.toList.map (·.2) := by
  have h : m.values = m.foldr (fun _ a as => a :: as) [] := rfl
  rw [h, TreeMap.foldr_eq_foldr_toList]
  induction m.toList with
  | nil => rfl
  | cons e es ih => rw [List.foldr_cons, ih, List.map_cons]

theorem mem_values {m : IdMap α} {a : α} : a ∈ m.values ↔ ∃ k : Nat, m[k]? = some a := by
  rw [values_eq_map_toList, List.mem_map]
  constructor
  · rintro ⟨⟨k, b⟩, hmem, rfl⟩
    exact ⟨k, TreeMap.mem_toList_iff_getElem?_eq_some.1 hmem⟩
  · rintro ⟨k, hk⟩
    exact ⟨(k, a), TreeMap.mem_toList_iff_getElem?_eq_some.2 hk, rfl⟩

/-- Appending elements to the lists of a map one by one puts each under its key. -/
theorem mem_getD_foldl_append {β : Type} {key : β → Nat} {elem : β → α} {xs : List β}
    {m : IdMap (List α)} {k : Nat} {a : α} :
    a ∈ (xs.foldl (fun m x => m.insert (key x) (m.getD (key x) [] ++ [elem x])) m).getD k [] ↔
      a ∈ m.getD k [] ∨ ∃ x ∈ xs, key x = k ∧ elem x = a := by
  induction xs generalizing m with
  | nil => simp
  | cons x xs ih =>
    rw [List.foldl_cons, ih, TreeMap.getD_insert]
    by_cases h : key x = k
    · simp only [h, List.mem_cons]
      grind
    · simp only [LawfulEqCmp.compare_eq_iff_eq, h, List.mem_cons]
      grind

theorem getD_of_getElem? {m : IdMap α} {k : Nat} {a b : α} (h : m[k]? = some a) :
    m.getD k b = a := by
  rw [TreeMap.getD_eq_getD_getElem?, h, Option.getD_some]

theorem getD_insert {m : IdMap α} {k j : Nat} {a b : α} :
    (m.insert k a).getD j b = if k = j then a else m.getD j b := by
  rw [TreeMap.getD_insert]
  simp only [LawfulEqCmp.compare_eq_iff_eq]

theorem mem_iff_exists_getElem? {m : IdMap α} {k : Nat} : k ∈ m ↔ ∃ a, m[k]? = some a := by
  rw [TreeMap.mem_iff_isSome_getElem?, Option.isSome_iff_exists]

theorem eq_or_of_getElem?_insert {m : IdMap α} {k j : Nat} {a b : α}
    (h : (m.insert k a)[j]? = some b) : k = j ∧ a = b ∨ m[j]? = some b := by
  rw [TreeMap.getElem?_insert] at h
  split at h
  · next heq => exact .inl ⟨LawfulEqCmp.compare_eq_iff_eq.1 heq, Option.some.inj h⟩
  · exact .inr h

/-- A table filled key by key. -/
theorem getD_foldl_insert {xs : List Nat} {f : Nat → α} {m : IdMap α} {k : Nat} {b : α} :
    (xs.foldl (fun m x => m.insert x (f x)) m).getD k b = if k ∈ xs then f k else m.getD k b := by
  induction xs generalizing m with
  | nil => simp
  | cons x xs ih =>
    rw [List.foldl_cons, ih, getD_insert]
    by_cases hk : k ∈ xs
    · simp [hk]
    · by_cases hx : x = k
      · simp [hk, hx]
      · simp [hk, hx, Ne.symm hx]

/-- A table filled key by key where there is something to fill in. -/
theorem getElem?_foldl_insert {f : Nat → Option α} {step : IdMap α → Nat → IdMap α}
    (hsome : ∀ m x a, f x = some a → step m x = m.insert x a)
    (hnone : ∀ m x, f x = none → step m x = m) {xs : List Nat} {m : IdMap α} {k : Nat} :
    (xs.foldl step m)[k]? = (if k ∈ xs then f k else none).or m[k]? := by
  induction xs generalizing m with
  | nil => simp
  | cons x xs ih =>
    rw [List.foldl_cons, ih]
    by_cases hx : x = k
    · subst hx
      cases hf : f x with
      | none => simp [hnone m x hf]
      | some a => by_cases hk : x ∈ xs <;> simp [hk, hsome m x a hf]
    · have hmem : k ∈ x :: xs ↔ k ∈ xs := by simp [Ne.symm hx]
      simp only [hmem]
      cases hf : f x with
      | none => rw [hnone m x hf]
      | some a => simp [hsome m x a hf, TreeMap.getElem?_insert, hx]

/-- The members of a list numbered from `k` on. -/
theorem getElem?_foldl_zipIdx {xs : List Nat} (hxs : xs.Nodup) (k : Nat) (m : IdMap Nat) (i : Nat) :
    ((xs.zipIdx k).foldl (fun m q => m.insert q.1 q.2) m)[i]? =
      if i ∈ xs then some (k + xs.idxOf i) else m[i]? := by
  induction xs generalizing k m with
  | nil => rfl
  | cons x xs ih =>
    obtain ⟨hx, hxs⟩ := List.nodup_cons.1 hxs
    rw [List.zipIdx_cons, List.foldl_cons, ih hxs, TreeMap.getElem?_insert, List.idxOf_cons]
    by_cases heq : x = i
    · subst heq
      simp [hx]
    · have hne : i ≠ x := fun h => heq h.symm
      have hbeq : (x == i) = false := beq_eq_false_iff_ne.2 heq
      simp [heq, hne, hbeq, Nat.add_assoc, Nat.add_comm 1]

theorem size_foldl_zipIdx {xs : List Nat} (hxs : xs.Nodup) (k : Nat) {m : IdMap Nat}
    (hm : ∀ x ∈ xs, x ∉ m) :
    ((xs.zipIdx k).foldl (fun m q => m.insert q.1 q.2) m).size = m.size + xs.length := by
  induction xs generalizing k m with
  | nil => rfl
  | cons x xs ih =>
    obtain ⟨hx, hxs⟩ := List.nodup_cons.1 hxs
    obtain ⟨hnew, hm⟩ := List.forall_mem_cons.1 hm
    have hkeep : ∀ y ∈ xs, y ∉ m.insert x k := fun y hy h => by
      rcases TreeMap.mem_insert.1 h with heq | h
      · exact hx (LawfulEqCmp.eq_of_compare heq ▸ hy)
      · exact hm y hy h
    rw [List.zipIdx_cons, List.foldl_cons, ih hxs (k + 1) hkeep, TreeMap.size_insert,
      if_neg (mt TreeMap.contains_iff_mem.1 hnew), List.length_cons]
    omega

/-- A key that is always given the same value has that value. -/
theorem getD_foldl_insert_of_forall {β : Type} {key : β → Nat} {val : β → α} {xs : List β}
    {m : IdMap α} {k : Nat} {a b : α} (hex : ∃ x ∈ xs, key x = k)
    (hall : ∀ x ∈ xs, key x = k → val x = a) :
    (xs.foldl (fun m x => m.insert (key x) (val x)) m).getD k b = a := by
  have hkeep (xs : List β) (m : IdMap α) (hall : ∀ x ∈ xs, key x = k → val x = a)
      (h : m.getD k b = a ∨ ∃ x ∈ xs, key x = k) :
      (xs.foldl (fun m x => m.insert (key x) (val x)) m).getD k b = a := by
    induction xs generalizing m with
    | nil => simpa using h
    | cons x xs ih =>
      refine ih _ (fun y hy => hall y (List.mem_cons_of_mem x hy)) ?_
      rw [getD_insert]
      by_cases hx : key x = k
      · rw [if_pos hx]
        exact .inl (hall x List.mem_cons_self hx)
      · rw [if_neg hx]
        refine h.imp_right fun ⟨y, hy, hk⟩ => ⟨y, ?_, hk⟩
        exact (List.mem_cons.1 hy).resolve_left fun heq => hx (heq ▸ hk)
  exact hkeep xs m hall (.inr hex)

theorem mem_getD_iff {m : IdMap IdSet} {k x : Nat} :
    x ∈ m.getD k ∅ ↔ ∃ a, m[k]? = some a ∧ x ∈ a := by
  rw [TreeMap.getD_eq_getD_getElem?]
  cases m[k]? with
  | none => simp
  | some a => simp

theorem mem_of_mem_getD {m : IdMap IdSet} {k x : Nat} (h : x ∈ m.getD k ∅) : k ∈ m := by
  by_contra hk
  rw [TreeMap.getD_eq_fallback hk] at h
  exact absurd h TreeSet.not_mem_emptyc

theorem mem_getD_addTo {m : IdMap IdSet} {k j x y : Nat} :
    y ∈ (m.addTo k x).getD j ∅ ↔ y ∈ m.getD j ∅ ∨ k = j ∧ x = y := by
  rw [addTo, getD_insert]
  split
  · next h =>
    subst h
    rw [IdSet.mem_insert]
    grind
  · grind

theorem mem_getD_addAllTo {m : IdMap IdSet} {xs : IdSet} {k j y : Nat} :
    y ∈ (m.addAllTo k xs).getD j ∅ ↔ y ∈ m.getD j ∅ ∨ k = j ∧ y ∈ xs := by
  rw [addAllTo, getD_insert]
  split
  · next h =>
    subst h
    rw [TreeSet.mem_union_iff]
    grind
  · grind

theorem mem_getD_foldl_addTo {ks : List Nat} {m : IdMap IdSet} {k x y : Nat} :
    x ∈ (ks.foldl (·.addTo · y) m).getD k ∅ ↔ x ∈ m.getD k ∅ ∨ k ∈ ks ∧ x = y := by
  induction ks generalizing m with
  | nil => simp
  | cons q ks ih =>
    rw [List.foldl_cons, ih, mem_getD_addTo, List.mem_cons, or_assoc, or_and_right]
    simp only [eq_comm]

/-- Adding each of some handles under all its keys. -/
theorem mem_getD_foldl_addTo_each {keys : Nat → List Nat} {xs : List Nat} {m : IdMap IdSet}
    {k x : Nat} : x ∈ (xs.foldl (fun m y => (keys y).foldl (·.addTo · y) m) m).getD k ∅ ↔
      x ∈ m.getD k ∅ ∨ x ∈ xs ∧ k ∈ keys x := by
  induction xs generalizing m with
  | nil => simp
  | cons y xs ih =>
    rw [List.foldl_cons, ih, mem_getD_foldl_addTo, List.mem_cons, or_assoc, or_and_right]
    refine or_congr_right (or_congr_left ⟨?_, ?_⟩)
    · rintro ⟨hk, rfl⟩
      exact ⟨rfl, hk⟩
    · rintro ⟨rfl, hk⟩
      exact ⟨hk, rfl⟩

end IdMap

/-- What each of some steps keeps, all of them keep. -/
theorem invariant_of_foldlM {α β : Type} {I : β → Prop} {f : β → α → Option β} {as : List α}
    (hf : ∀ a ∈ as, ∀ b b', I b → f b a = some b' → I b') {b b' : β} (hb : I b)
    (h : as.foldlM f b = some b') : I b' := by
  induction as generalizing b with
  | nil => exact Option.some.inj h ▸ hb
  | cons a as ih =>
    rw [List.foldlM_cons] at h
    obtain ⟨c, hc, h⟩ := Option.bind_eq_some_iff.1 h
    exact ih (fun a ha => hf a (List.mem_cons_of_mem _ ha)) (hf a List.mem_cons_self b c hb hc) h

/-- Steps that only add the elements they stand for. -/
theorem mem_foldlM_iff {α β : Type} {f : List β → α → Option (List β)} {R : α → β → Prop}
    {xs : List α} {found found' : List β}
    (hf : ∀ a ∈ xs, ∀ {found found'}, f found a = some found' → ∀ b, b ∈ found' ↔ b ∈ found ∨ R a b)
    (h : xs.foldlM f found = some found') {b : β} :
    b ∈ found' ↔ b ∈ found ∨ ∃ a ∈ xs, R a b := by
  induction xs generalizing found with
  | nil =>
    cases h
    simp
  | cons a xs ih =>
    rw [List.foldlM_cons] at h
    obtain ⟨mid, hmid, h⟩ := Option.bind_eq_some_iff.1 h
    rw [ih (fun a ha => hf a (List.mem_cons_of_mem _ ha)) h, hf a List.mem_cons_self hmid, or_assoc]
    simp only [List.mem_cons, exists_eq_or_imp]

end DataRace
