import DataRace.Partition.Basic
import DataRace.Proofs.PointsTo.Edges
import DataRace.Proofs.Subject

/-!
# DataRace.Proofs.Partition.Classes

Partitions are the classes of objects that the same accesses touch.

Objects are placed one after the other, each into the partition with its
accesses or into a new one.  What the partitions are after some objects were
placed is `Groups`: each holds exactly the objects placed so far that have its
accesses, and no two have the same.  A further object keeps that
(`Groups.place`), so it holds of all objects in the end.

* `mem_touched_iff` — the objects that are found for an access are those it
  touches, whether through its pointer or as part of an aggregate;
* `of_areClasses` — the partitions are the classes of equal accesses.
-/

namespace DataRace

open Std

namespace Partitioning

/-- An object with contents of its own: neither a function nor unknown memory. -/
def IsData (t : PointsTo) (o : ObjId) : Prop :=
  o < t.objs.size ∧ (t.obj o).isUnknown = false ∧ (t.obj o).isFunction = false

instance (t : PointsTo) (o : ObjId) : Decidable (IsData t o) :=
  inferInstanceAs (Decidable (_ ∧ _ ∧ _))

/-- Whether an access touches an object: its pointer may point there, or it is a call whose pointer
may point to the start of the aggregate that the object belongs to. -/
def Touches (s : Subject) (x : Access) (o : ObjId) : Prop :=
  IsData s.pointers o ∧ (o ∈ s.pointers.of x.ptr ∨
    s.program.isCall x.inst = true ∧ ∃ q ∈ s.pointers.of x.ptr,
      (s.pointers.obj q).isFirstField = true ∧ s.pointers.objs.baseOf q = s.pointers.objs.baseOf o)

/-! ## the objects that an access touches -/

section

variable {p : Program} {c : Config} {s : Subject}

/-- The objects of one aggregate are data together. -/
theorem isData_of_baseOf_eq (hp : p.Finished) (h : s.Prepared p c) {q o : Nat}
    (hq : IsData s.pointers q) (ho : o < s.pointers.objs.size)
    (hbase : s.pointers.objs.baseOf q = s.pointers.objs.baseOf o) : IsData s.pointers o := by
  have hlaid {x : Nat} (hx : x < s.pointers.objs.size) : s.pointers.objs.LaidAt x :=
    PointsTo.laidAt_of_lt hp h.pointers hx
  have hsame (hplain : s.pointers.objs.IsPlain o) : q = o :=
    (hlaid hq.1).eq_of_isPlain (hlaid ho) hbase hplain
  refine ⟨ho, ?_, ?_⟩
  · by_contra hunknown
    rw [Bool.not_eq_false] at hunknown
    have heq := hsame (.inl (of_decide_eq_true hunknown))
    exact absurd hunknown (by rw [← heq, hq.2.1]; exact Bool.false_ne_true)
  · by_contra hfunction
    rw [Bool.not_eq_false] at hfunction
    have heq := hsame (.inr (of_decide_eq_true hfunction))
    exact absurd hfunction (by rw [← heq, hq.2.2]; exact Bool.false_ne_true)

theorem mem_touched_iff (hp : p.Finished) (h : s.Prepared p c) {x : Access} {o : Nat} :
    o ∈ touched s x ↔ Touches s x o := by
  have hlt {q : Nat} (hq : q ∈ s.pointers.of x.ptr) : q < s.pointers.objs.size :=
    PointsTo.lt_of_mem hp h.pointers hq
  have hdata {q : Nat} : q ∈ (s.pointers.of x.ptr).toList.filter (fun o =>
      !(s.pointers.obj o).isUnknown && !(s.pointers.obj o).isFunction) ↔
      q ∈ s.pointers.of x.ptr ∧ IsData s.pointers q := by
    rw [List.mem_filter, TreeSet.mem_toList, Bool.and_eq_true, Bool.not_eq_true', Bool.not_eq_true']
    exact and_congr_right fun hq => (and_iff_right (hlt hq)).symm
  simp only [touched, List.mem_flatMap, List.mem_cons]
  constructor
  · rintro ⟨q, hq, rfl | ho⟩
    · obtain ⟨hmem, hq⟩ := hdata.1 hq
      exact ⟨hq, .inl hmem⟩
    · obtain ⟨hmem, hq⟩ := hdata.1 hq
      split at ho
      · next hwhole =>
        rw [Bool.and_eq_true] at hwhole
        have hlaid := PointsTo.laidAt_of_mem hp h.pointers hmem
        have hbase := (hlaid.mem_allFields ho).1
        have ho_lt := PointsTo.allFields_lt hp h.pointers hq.1 ho
        exact ⟨isData_of_baseOf_eq hp h hq ho_lt hbase.symm,
          .inr ⟨hwhole.1, q, hmem, hwhole.2, hbase.symm⟩⟩
      · cases ho
  · rintro ⟨ho, hmem | ⟨hcall, q, hmem, hfirst, hbase⟩⟩
    · exact ⟨o, hdata.2 ⟨hmem, ho⟩, .inl rfl⟩
    · have hq := isData_of_baseOf_eq hp h ho (hlt hmem) hbase.symm
      refine ⟨q, hdata.2 ⟨hmem, hq⟩, .inr ?_⟩
      rw [if_pos (by rw [hcall, hfirst]; rfl)]
      exact (PointsTo.laidAt_of_lt hp h.pointers ho.1).mem_allFields_of_baseOf_eq hbase.symm

end

/-! ## the accesses of each object -/

variable {s : Subject} {ops : Operations}

/-- The accesses recorded for an object are those that touch it. -/
theorem mem_getD_touching {o : ObjId} {a : AccessId} :
    a ∈ (touching s ops).getD o ∅ ↔ a ∈ ops.ids ∧ o ∈ touched s (ops.get a) :=
  IdMap.mem_getD_foldl_addTo_each.trans (or_iff_right (by simp))

/-- Only objects that are touched are recorded. -/
theorem exists_mem_of_touching {o : Nat} {ids : IdSet} (h : (touching s ops)[o]? = some ids) :
    ∃ a, a ∈ ids := by
  let Filled (m : IdMap IdSet) : Prop := ∀ {o : Nat} {ids : IdSet}, m[o]? = some ids → ∃ a, a ∈ ids
  have hadd {m : IdMap IdSet} (hm : Filled m) (o a : Nat) : Filled (m.addTo o a) := by
    intro q ids hq
    rw [IdMap.addTo, TreeMap.getElem?_insert] at hq
    split at hq
    · cases hq
      exact ⟨a, IdSet.mem_insert.2 (.inl rfl)⟩
    · exact hm hq
  have hall : Filled (touching s ops) := by
    unfold touching
    refine List.foldlRecOn (motive := Filled) _ _ (by intro o ids h; simp at h) fun m hm b _ => ?_
    exact List.foldlRecOn (motive := Filled) _ _ hm fun m hm o _ => hadd hm o b
  exact hall h

/-! ## grouping -/

/-- The accesses of an object as a new partition lists them. -/
def slots (ids : IdSet) : List (Option AccessId) := ids.toList.map some

/-- The partitions group some objects by their accesses. -/
structure Groups (es : List (ObjId × IdSet)) (parts : List Partition) : Prop where
  mem_iff : ∀ q ∈ parts, ∀ {o : Nat}, o ∈ q.objs ↔ ∃ ids, (o, ids) ∈ es ∧ q.accesses = slots ids
  inhabited : ∀ q ∈ parts, ∃ o, o ∈ q.objs
  covers : ∀ e ∈ es, ∃ q ∈ parts, q.accesses = slots e.2
  nodup : (parts.map (·.accesses)).Nodup

/-- A partition after an object with the given accesses was placed, if the partition has them. -/
def joined (o : ObjId) (accesses : List (Option AccessId)) (q : Partition) : Partition :=
  if q.accesses = accesses then { q with objs := q.objs.insert o } else q

theorem accesses_joined (o : ObjId) (accesses : List (Option AccessId)) (q : Partition) :
    (joined o accesses q).accesses = q.accesses := by
  unfold joined
  split <;> rfl

theorem mem_objs_joined {o x : Nat} {accesses : List (Option AccessId)} {q : Partition} :
    x ∈ (joined o accesses q).objs ↔ x ∈ q.objs ∨ x = o ∧ q.accesses = accesses := by
  unfold joined
  split
  · next heq => rw [IdSet.mem_insert, @eq_comm _ o, or_comm, and_iff_left heq]
  · next hne => rw [or_iff_left fun hx => hne hx.2]

namespace Groups

variable {c : Config} {es : List (ObjId × IdSet)} {parts : List Partition}

/-- A further object joins the group of its accesses, or makes a new one. -/
theorem place (h : Groups es parts) (o : ObjId) (ids : IdSet) :
    Groups (es ++ [(o, ids)]) (place c parts o (slots ids)) := by
  have hmem {x : Nat} {accesses : List (Option AccessId)} :
      (∃ js, (x, js) ∈ es ++ [(o, ids)] ∧ accesses = slots js) ↔
        (∃ js, (x, js) ∈ es ∧ accesses = slots js) ∨ x = o ∧ accesses = slots ids := by
    simp only [List.mem_append, List.mem_singleton, Prod.mk.injEq, or_and_right,
      exists_or, and_assoc, exists_and_left, exists_eq_left]
  unfold Partitioning.place
  split
  · next hany =>
    simp only [List.any_eq_true, decide_eq_true_eq] at hany
    change Groups _ (parts.map (joined o (slots ids)))
    constructor
    case mem_iff =>
      intro r hr x
      obtain ⟨q, hq, rfl⟩ := List.mem_map.1 hr
      rw [hmem, accesses_joined, mem_objs_joined, h.mem_iff q hq]
    case inhabited =>
      intro r hr
      obtain ⟨q, hq, rfl⟩ := List.mem_map.1 hr
      obtain ⟨x, hx⟩ := h.inhabited q hq
      exact ⟨x, mem_objs_joined.2 (.inl hx)⟩
    case covers =>
      intro e he
      have hold : ∃ q ∈ parts, q.accesses = slots e.2 := by
        rcases List.mem_append.1 he with he | he
        · exact h.covers e he
        · obtain rfl := List.mem_singleton.1 he
          exact hany
      obtain ⟨q, hq, heq⟩ := hold
      exact ⟨_, List.mem_map_of_mem hq, (accesses_joined _ _ q).trans heq⟩
    case nodup =>
      have haccesses : (·.accesses) ∘ joined o (slots ids) = (·.accesses) :=
        funext (accesses_joined o (slots ids))
      rw [List.map_map, haccesses]
      exact h.nodup
  · next hany =>
    simp only [List.any_eq_true, decide_eq_true_eq, not_exists, not_and] at hany
    constructor
    case mem_iff =>
      intro q hq x
      rw [hmem]
      rcases List.mem_append.1 hq with hq | hq
      · rw [h.mem_iff q hq, or_iff_left fun hx => hany q hq hx.2]
      · obtain rfl := List.mem_singleton.1 hq
        rw [IdSet.mem_singleton, and_iff_left rfl, or_iff_right]
        rintro ⟨js, hjs, heq⟩
        obtain ⟨r, hr, hr_eq⟩ := h.covers _ hjs
        exact hany r hr (hr_eq.trans heq.symm)
    case inhabited =>
      intro q hq
      rcases List.mem_append.1 hq with hq | hq
      · exact h.inhabited q hq
      · obtain rfl := List.mem_singleton.1 hq
        exact ⟨o, IdSet.mem_singleton.2 rfl⟩
    case covers =>
      intro e he
      rcases List.mem_append.1 he with he | he
      · obtain ⟨q, hq, heq⟩ := h.covers e he
        exact ⟨q, List.mem_append_left _ hq, heq⟩
      · obtain rfl := List.mem_singleton.1 he
        exact ⟨_, List.mem_append_right _ (List.mem_singleton_self _), rfl⟩
    case nodup =>
      rw [List.map_append, List.map_singleton, List.nodup_append]
      refine ⟨h.nodup, List.nodup_singleton _, fun x hx y hy heq => ?_⟩
      obtain ⟨q, hq, rfl⟩ := List.mem_map.1 hx
      exact hany q hq (heq.trans (List.mem_singleton.1 hy))

theorem foldl_place (h : Groups es parts) (fs : List (ObjId × IdSet)) :
    Groups (es ++ fs)
    (fs.foldl (fun parts e => Partitioning.place c parts e.1 (slots e.2)) parts) := by
  induction fs generalizing es parts with
  | nil => simpa using h
  | cons f fs ih =>
    rw [List.foldl_cons, ← List.singleton_append, ← List.append_assoc]
    exact ih (h.place f.1 f.2)

end Groups

/-- All objects that are touched are grouped. -/
theorem groups_of (s : Subject) (ops : Operations) :
    Groups (touching s ops).toList (Partitioning.of s ops).parts := by
  have hnone : Groups [] [] := ⟨by simp, by simp, by simp, List.nodup_nil⟩
  exact hnone.foldl_place _

/-- Partitions are numbered from 1. -/
theorem map_id_of (s : Subject) (ops : Operations) :
    (Partitioning.of s ops).parts.map (·.id) =
      List.range' 1 (Partitioning.of s ops).parts.length := by
  have hplace {parts : List Partition}
    (h : parts.map (·.id) = List.range' 1 parts.length) (o : ObjId)
      (accesses : List (Option AccessId)) : (place s.config parts o accesses).map (·.id) =
        List.range' 1 (place s.config parts o accesses).length := by
    unfold place
    split
    · rw [List.length_map, ← h, List.map_map]
      refine List.map_congr_left fun p _ => ?_
      by_cases hp : p.accesses = accesses <;> simp [hp]
    · rw [List.map_append, h, List.length_append, List.length_singleton, List.range'_concat]
      simp [Nat.add_comm]
  unfold Partitioning.of
  refine List.foldlRecOn (motive := fun parts : List Partition =>
    parts.map (·.id) = List.range' 1 parts.length) _ _ rfl fun parts h e _ => hplace h _ _

/-! ## classes -/

/-- The partitions are the classes of the objects that the same accesses touch. -/
structure AreClasses (s : Subject) (ops : Operations) (m : Partitioning) : Prop where
  /-- An object is in a partition if some access touches it. -/
  partOf_iff : ∀ o, (∃ k, m.partOf? o = some k) ↔ ∃ a ∈ ops.ids, Touches s (ops.get a) o
  /-- Two objects are in one partition if the same accesses touch them. -/
  same_iff : ∀ o₁ o₂ k₁ k₂, m.partOf? o₁ = some k₁ → m.partOf? o₂ = some k₂ →
    (k₁ = k₂ ↔ ∀ a ∈ ops.ids, Touches s (ops.get a) o₁ ↔ Touches s (ops.get a) o₂)
  /-- A partition lists the accesses that touch its objects in order, none of them pruned. -/
  accesses : ∀ o k, m.partOf? o = some k → ∃ (q : Partition) (as : List AccessId),
    m.get? k = some q ∧ q.accesses = as.map some ∧
    as.Pairwise (· < ·) ∧ ∀ a, a ∈ as ↔ a ∈ ops.ids ∧ Touches s (ops.get a) o
  inhabited : ∀ q ∈ m.parts, ∃ o, o ∈ q.objs
  disjoint : m.parts.Pairwise fun q r => ∀ o ∈ q.objs, o ∉ r.objs
  covers : ∀ o, (∃ q ∈ m.parts, o ∈ q.objs) ↔ ∃ a ∈ ops.ids, Touches s (ops.get a) o
  /-- No partition has the number 0. -/
  reserved : m.get? 0 = none

/-- The objects of a partition are those recorded with its accesses. -/
theorem mem_objs_iff {q : Partition} (hq : q ∈ (Partitioning.of s ops).parts) {o : Nat} :
    o ∈ q.objs ↔ ∃ ids, (touching s ops)[o]? = some ids ∧ q.accesses = slots ids := by
  simp only [(groups_of s ops).mem_iff q hq, TreeMap.mem_toList_iff_getElem?_eq_some]

/-- An object is in one partition only. -/
theorem eq_of_mem_objs {q r : Partition} (hq : q ∈ (Partitioning.of s ops).parts)
    (hr : r ∈ (Partitioning.of s ops).parts) {o : Nat} (ho : o ∈ q.objs) (ho' : o ∈ r.objs) :
    q = r := by
  obtain ⟨ids, hids, hqa⟩ := (mem_objs_iff hq).1 ho
  obtain ⟨js, hjs, hra⟩ := (mem_objs_iff hr).1 ho'
  cases hids.symm.trans hjs
  exact List.inj_on_of_nodup_map (groups_of s ops).nodup hq hr (hqa.trans hra.symm)

theorem nodup_ids (s : Subject) (ops : Operations) :
    ((Partitioning.of s ops).parts.map (·.id)).Nodup := by
  rw [map_id_of]
  exact List.nodup_range'

/-- The only element of a list that passes a test is the one that is found. -/
theorem find?_eq_some_of_unique {α : Type} {test : α → Bool} {xs : List α} {x : α} (hx : x ∈ xs)
    (htest : test x = true) (honly : ∀ y ∈ xs, test y = true → y = x) : xs.find? test = some x := by
  obtain ⟨y, hy⟩ := Option.isSome_iff_exists.1 (List.find?_isSome.2 ⟨x, hx, htest⟩)
  rw [hy, honly y (List.mem_of_find?_eq_some hy) (List.find?_some hy)]

/-- The partition of an object is the one that holds it. -/
theorem partOf?_eq_some_iff {o k : Nat} : (Partitioning.of s ops).partOf? o = some k ↔
    ∃ q ∈ (Partitioning.of s ops).parts, o ∈ q.objs ∧ q.id = k := by
  rw [partOf?, Option.map_eq_some_iff]
  constructor
  · rintro ⟨q, hq, rfl⟩
    have ho := List.find?_some (p := fun q : Partition => q.objs.contains o) hq
    exact ⟨q, List.mem_of_find?_eq_some hq, TreeSet.contains_iff_mem.1 ho, rfl⟩
  · rintro ⟨q, hq, ho, rfl⟩
    refine ⟨q, find?_eq_some_of_unique hq (TreeSet.contains_iff_mem.2 ho) fun r hr ho' => ?_, rfl⟩
    exact eq_of_mem_objs hr hq (TreeSet.contains_iff_mem.1 ho') ho

/-- A partition is found under its number. -/
theorem get?_id {q : Partition} (hq : q ∈ (Partitioning.of s ops).parts) :
    (Partitioning.of s ops).get? q.id = some q :=
  find?_eq_some_of_unique hq (decide_eq_true rfl) fun _ hr hid =>
    List.inj_on_of_nodup_map (nodup_ids s ops) hr hq (of_decide_eq_true hid)

theorem slots_injective {ids js : IdSet} (h : slots ids = slots js) {a : Nat} :
    a ∈ ids ↔ a ∈ js := by
  have hlist : ids.toList = js.toList :=
    List.map_injective_iff.2 (Option.some_injective AccessId) h
  rw [← TreeSet.mem_toList, hlist, TreeSet.mem_toList]

/-- **Partitions are the classes of the objects that the same accesses touch.** -/
theorem of_areClasses {p : Program} {c : Config} (hp : p.Finished)
    (hs : Subject.prepare p c = .ok s) (ops : Operations) :
    AreClasses s ops (.of s ops) := by
  have h := Subject.prepared hs
  have htouch {o a : Nat} {ids : IdSet} (hids : (touching s ops)[o]? = some ids) :
      a ∈ ids ↔ a ∈ ops.ids ∧ Touches s (ops.get a) o := by
    rw [← mem_touched_iff hp h, ← mem_getD_touching, IdMap.getD_of_getElem? hids]
  have hcovers (o : Nat) : (∃ q ∈ (Partitioning.of s ops).parts, o ∈ q.objs) ↔
      ∃ a ∈ ops.ids, Touches s (ops.get a) o := by
    constructor
    · rintro ⟨q, hq, ho⟩
      obtain ⟨ids, hids, -⟩ := (mem_objs_iff hq).1 ho
      obtain ⟨a, ha⟩ := exists_mem_of_touching hids
      exact ⟨a, (htouch hids).1 ha⟩
    · rintro ⟨a, ha, htouches⟩
      have hmem := mem_getD_touching.2 ⟨ha, (mem_touched_iff hp h).2 htouches⟩
      obtain ⟨ids, hids, -⟩ := IdMap.mem_getD_iff.1 hmem
      obtain ⟨q, hq, heq⟩ := (groups_of s ops).covers (o, ids)
        (TreeMap.mem_toList_iff_getElem?_eq_some.2 hids)
      exact ⟨q, hq, (mem_objs_iff hq).2 ⟨ids, hids, heq⟩⟩
  constructor
  case partOf_iff =>
    intro o
    rw [← hcovers]
    simp only [partOf?_eq_some_iff]
    exact ⟨fun ⟨_, q, hq, ho, _⟩ => ⟨q, hq, ho⟩, fun ⟨q, hq, ho⟩ => ⟨q.id, q, hq, ho, rfl⟩⟩
  case same_iff =>
    intro o₁ o₂ k₁ k₂ h₁ h₂
    obtain ⟨q, hq, hqo, rfl⟩ := partOf?_eq_some_iff.1 h₁
    obtain ⟨r, hr, hro, rfl⟩ := partOf?_eq_some_iff.1 h₂
    obtain ⟨ids, hids, hqa⟩ := (mem_objs_iff hq).1 hqo
    obtain ⟨js, hjs, hra⟩ := (mem_objs_iff hr).1 hro
    constructor
    · intro hid a ha
      have heq := List.inj_on_of_nodup_map (nodup_ids s ops) hq hr hid
      have hsame := slots_injective (a := a) (hqa.symm.trans (heq ▸ hra))
      rw [htouch hids, htouch hjs, and_iff_right ha, and_iff_right ha] at hsame
      exact hsame
    · intro hsame
      have heq : ids.toList = js.toList := by
        refine (TreeSet.Equiv.of_forall_mem_iff fun a => ?_).toList_eq
        rw [htouch hids, htouch hjs]
        exact and_congr_right fun ha => hsame a ha
      have haccesses : q.accesses = r.accesses := by rw [hqa, hra, slots, slots, heq]
      rw [List.inj_on_of_nodup_map (groups_of s ops).nodup hq hr haccesses]
  case accesses =>
    intro o k ho
    obtain ⟨q, hq, hqo, rfl⟩ := partOf?_eq_some_iff.1 ho
    obtain ⟨ids, hids, hqa⟩ := (mem_objs_iff hq).1 hqo
    refine ⟨q, ids.toList, get?_id hq, hqa, ?_, fun a => ?_⟩
    · exact TreeSet.ordered_toList.imp fun hlt => Nat.compare_eq_lt.1 hlt
    · rw [TreeSet.mem_toList, htouch hids]
  case inhabited => exact (groups_of s ops).inhabited
  case disjoint =>
    refine (List.Nodup.of_map _ (nodup_ids s ops)).pairwise_of_forall_ne
      fun q hq r hr hne o ho ho' => ?_
    exact hne (eq_of_mem_objs hq hr ho ho')
  case covers => exact hcovers
  case reserved =>
    rw [get?, List.find?_eq_none]
    intro q hq hid
    have hmem := List.mem_map_of_mem (f := (·.id)) hq
    rw [map_id_of, List.mem_range'_1] at hmem
    rw [of_decide_eq_true hid] at hmem
    omega

/-- A call clears an aggregate of two fields, and a store writes the second one. -/
def clearedAggregate : List Command :=
  [.global "g" 2, .declare "main" 0, .declare "memset" 3, .const 0,
    .body 0, .append 0 0 (.call (.direct 1) [0, 6, 6]), .append 0 0 (.project 0 (some 1) none),
    .append 0 0 (.store 8 6), .append 0 0 (.ret none)]

/-- The start of the aggregate and its first field are in one class, the second field in another. -/
theorem of_areClasses_clearedAggregate : ∃ s, (Builder.ofScript clearedAggregate).Finished ∧
    Subject.prepare (Builder.ofScript clearedAggregate) {} = .ok s ∧
    AreClasses s (.collect s) (.of s (.collect s)) ∧
    [0, 1, 2].map (Partitioning.of s (.collect s)).partOf? = [some 1, some 1, some 2] := by
  have hfin : (Builder.ofScript clearedAggregate).Finished :=
    Builder.finished_ofScript (by decide +kernel)
  have hrun : (Subject.prepare (Builder.ofScript clearedAggregate) {}).toOption.any (fun s =>
      [0, 1, 2].map (Partitioning.of s (.collect s)).partOf? = [some 1, some 1, some 2]) =
      true := by
    decide +kernel
  obtain ⟨s, hs, hparts⟩ := exists_of_any_toOption hrun
  exact ⟨s, hfin, hs, of_areClasses hfin hs _, of_decide_eq_true hparts⟩

end Partitioning

end DataRace
