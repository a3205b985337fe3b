import DataRace.Proofs.Barrier.Entry
import DataRace.Proofs.Call.Summary
import DataRace.Proofs.Call.Visits

/-!
# DataRace.Proofs.Barrier.Sites

Where barriers are waited at.

Wait sites are recorded callees first, and each function gets its own when its
component is summarised.  A barrier is named by the pointer that a wait is
called with; summaries hand that name on to the callers, whatever they pass.  So
every barrier with sides is the pointer of a wait in a function that is analysed
(`waitedFor_of_mem_sides`).

* `WaitsIn` — the wait sites of a function in the end;
* `Grounded` — what summaries and sites speak of, kept by every step;
* `nodup_visits` — the sides are made by one visit of each function.
-/

namespace DataRace

open Std

/-- A function is in a component that is analysed. -/
def Subject.Visits (s : Subject) (f : FuncId) : Prop :=
  ∃ k ∈ s.bottomUp, f ∈ (s.components.get k).members

namespace Barriers

variable {s : Subject} {b : Barriers} {f : FuncId} {x : ValueId} {i : InstId} {k : ComponentId}

/-- A barrier is waited at by an instruction of a function or by what it calls. -/
def WaitsIn (s : Subject) (f : FuncId) (x : ValueId) (i : InstId) : Prop :=
  x ∈ ((analyze s).sites.getD f ∅).getD i ∅

instance (s : Subject) (f : FuncId) (x : ValueId) (i : InstId) : Decidable (WaitsIn s f x i) :=
  inferInstanceAs (Decidable (x ∈ ((analyze s).sites.getD f ∅).getD i ∅))

/-- A barrier is the pointer of a wait in a function that is analysed, casts aside. -/
def WaitedFor (s : Subject) (x : ValueId) : Prop :=
  ∃ f i, s.Visits f ∧ i ∈ s.program.funcInsts f ∧ s.program.WaitsFor x i

/-! ## the sites of a function -/

theorem sites_foldl_update {α : Type} {key : α → ValueId} {F : α → BarrierSides → BarrierSides}
    (as : List α) (b : Barriers) :
    (as.foldl (fun b a => b.update (key a) (F a)) b).sites = b.sites :=
  List.foldlRecOn (motive := fun b' : Barriers => b'.sites = b.sites) _ _ rfl fun _ hb' _ _ => hb'

theorem sites_place : (place s b f).sites = b.sites := by
  unfold place
  dsimp only
  rw [sites_foldl_update, sites_foldl_update, sites_foldl_update]

theorem sites_foldl_place (fs : List FuncId) : (fs.foldl (place s) b).sites = b.sites :=
  List.foldlRecOn (motive := fun b' : Barriers => b'.sites = b.sites) _ _ rfl
    fun _ hb' _ _ => sites_place.trans hb'

theorem mem_visits_iff : f ∈ visits s ↔ s.Visits f := by
  rw [visits, List.mem_flatMap, Subject.topDown_eq]
  exact exists_congr fun k => and_congr_left' List.mem_reverse

/-- A function is visited once. -/
theorem nodup_visits {p : Program} {c : Config} (h : s.Prepared p c) : (visits s).Nodup := by
  have hsorts := Components.ofGraph_sorts h.defined
  rw [← h.components] at hsorts
  obtain rfl := h.program
  refine List.nodup_flatMap.2 ⟨fun k _ => hsorts.ascending.imp Nat.ne_of_lt, ?_⟩
  have hnodup : s.topDown.Nodup := (Subject.visitsInOrder h.defined h.components).topDown_nodup
  refine hnodup.imp_of_mem fun {j k} hj hk hne => ?_
  have hlt {l : ComponentId} (hl : l ∈ s.topDown) : l < s.components.list.size :=
    ((Subject.visitsInOrder h.defined h.components).mem_topDown.1 hl).1
  intro f hf hf'
  have hplace := hsorts.of?_iff.2 ⟨hlt hj, hf⟩
  rw [hsorts.of?_iff.2 ⟨hlt hk, hf'⟩] at hplace
  exact hne (Option.some.inj hplace).symm

theorem getD_sites_summarise : (summarise s b k).sites.getD f ∅ =
    if f ∈ (s.components.get k).members then b.sitesOf s f else b.sites.getD f ∅ := by
  have hfold : (summarise s b k).sites =
      (s.components.get k).members.foldl (fun m g => m.insert g (b.sitesOf s g)) b.sites := by
    unfold summarise
    exact List.foldl_map
  rw [hfold, IdMap.getD_foldl_insert]

/-! ## what summaries and sites speak of -/

/-- The summaries and the sites have only barriers that are waited for, and only functions that are
analysed have sites. -/
structure Grounded (s : Subject) (b : Barriers) : Prop where
  waits : ∀ {k : ComponentId} {u : IdSet} {x}, b.waits[k]? = some u → x ∈ u → WaitedFor s x
  sites : ∀ {f i x}, x ∈ (b.sites.getD f ∅).getD i ∅ →
    s.Visits f ∧ i ∈ s.program.funcInsts f ∧ WaitedFor s x

namespace Grounded

theorem empty : Grounded s {} where
  waits hu := by simp at hu
  sites hx := by simp at hx

/-- A site of an analysed function waits itself or gets the barrier from a summary. -/
theorem waitedFor (hb : Grounded s b) (hf : s.Visits f) (hi : i ∈ s.program.funcInsts f)
    (hsite : s.program.WaitsFor x i ∨ Brings s b x i) : WaitedFor s x := by
  rcases hsite with hwaits | ⟨g, -, u, hu, hx⟩
  · exact ⟨f, i, hf, hi, hwaits⟩
  · obtain ⟨l, -, hl⟩ := Option.bind_eq_some_iff.1 hu
    exact hb.waits hl hx

theorem summarise (hb : Grounded s b) (hk : k ∈ s.bottomUp) : Grounded s (b.summarise s k) where
  waits {l u x} hu hx := by
    rw [waits_summarise] at hu
    rcases IdMap.eq_or_of_getElem?_insert hu with ⟨-, rfl⟩ | hold
    · obtain ⟨g, hg, hx⟩ := exists_of_mem_waitsOf hx
      obtain ⟨i, -, -, -, hi, hsite⟩ := exists_of_mem_waitedIn hx
      exact hb.waitedFor ⟨k, hk, hg⟩ hi hsite
    · exact hb.waits hold hx
  sites {f i x} hx := by
    rw [getD_sites_summarise] at hx
    split at hx
    · next hf =>
      obtain ⟨hi, hsite⟩ := mem_sitesOf hx
      exact ⟨⟨k, hk, hf⟩, hi, hb.waitedFor ⟨k, hk, hf⟩ hi (mem_waitsAt_iff.1 hsite)⟩
    · exact hb.sites hx

/-- Placing code on the sides leaves summaries and sites alone. -/
theorem place (hb : Grounded s b) : Grounded s (b.place s f) where
  waits hu := hb.waits (waits_place ▸ hu)
  sites hx := hb.sites (sites_place ▸ hx)

end Grounded

theorem grounded_summarised (s : Subject) : Grounded s (s.bottomUp.foldl (summarise s) {}) :=
  List.foldlRecOn (motive := Grounded s) _ _ .empty fun _ hb _ hk => hb.summarise hk

/-- A wait site stands in a function that is analysed. -/
theorem WaitsIn.spec (h : WaitsIn s f x i) :
    s.Visits f ∧ i ∈ s.program.funcInsts f ∧ WaitedFor s x := by
  rw [WaitsIn, analyze_eq_foldl, sites_foldl_place] at h
  exact (grounded_summarised s).sites h

/-! ## the barriers with sides -/

/-- Updates one after the other make sides for the barriers they name. -/
theorem mem_sides_foldl_update {α : Type} (key : α → ValueId) {F : α → BarrierSides → BarrierSides}
    (as : List α) (b : Barriers) : x ∈ (as.foldl (fun b a => b.update (key a) (F a)) b).sides ↔
      x ∈ b.sides ∨ ∃ a ∈ as, key a = x := by
  induction as generalizing b with
  | nil => simp
  | cons a as ih =>
    rw [List.foldl_cons, ih, update, TreeMap.mem_insert, LawfulEqCmp.compare_eq_iff_eq,
      or_comm (a := key a = x), or_assoc]
    simp only [List.mem_cons, exists_eq_or_imp]

theorem mem_sides_of_mem_sharedBy {side : BarrierSides → CodeSet} (h : x ∈ b.sharedBy s f side) :
    x ∈ b.sides := by
  unfold sharedBy at h
  dsimp only at h
  split at h
  · cases h
  · obtain ⟨e, he, rfl⟩ := List.mem_map.1 h
    exact IdMap.mem_iff_exists_getElem?.2
      ⟨e.2, TreeMap.mem_toList_iff_getElem?_eq_some.1 (List.mem_filter.1 he).1⟩

/-- The waits of a table of sites, each with its barrier. -/
theorem mem_waits_iff {m : IdMap IdSet} :
    (i, x) ∈ (m.toList.flatMap fun e => e.2.toList.map (e.1, ·)) ↔
      x ∈ m.getD i ∅ := by
  rw [List.mem_flatMap, IdMap.mem_getD_iff]
  constructor
  · rintro ⟨e, he, hpair⟩
    obtain ⟨y, hy, heq⟩ := List.mem_map.1 hpair
    obtain ⟨rfl, rfl⟩ := Prod.mk.inj heq
    exact ⟨e.2, TreeMap.mem_toList_iff_getElem?_eq_some.1 he, TreeSet.mem_toList.1 hy⟩
  · rintro ⟨u, hu, hx⟩
    exact ⟨(i, u), TreeMap.mem_toList_iff_getElem?_eq_some.2 hu,
      List.mem_map_of_mem (TreeSet.mem_toList.2 hx)⟩

/-- The visit of a function makes sides for the barriers of its wait sites. -/
theorem mem_sides_place : x ∈ (place s b f).sides ↔
    x ∈ b.sides ∨ ∃ i, x ∈ (b.sites.getD f ∅).getD i ∅ := by
  unfold place
  dsimp only
  rw [mem_sides_foldl_update Prod.snd, mem_sides_foldl_update (fun y => y),
    mem_sides_foldl_update (fun y => y), sites_foldl_update, sites_foldl_update]
  constructor
  · rintro (((hx | ⟨y, hy, rfl⟩) | ⟨y, hy, rfl⟩) | ⟨⟨i, _⟩, hmem, rfl⟩)
    · exact .inl hx
    · exact .inl (mem_sides_of_mem_sharedBy hy)
    · exact .inl (mem_sides_of_mem_sharedBy hy)
    · exact .inr ⟨i, mem_waits_iff.1 hmem⟩
  · rintro (hx | ⟨i, hi⟩)
    · exact .inl (.inl (.inl hx))
    · exact .inr ⟨(i, x), mem_waits_iff.2 hi, rfl⟩

theorem mem_sides_foldl_place (fs : List FuncId) : x ∈ (fs.foldl (place s) b).sides ↔
    x ∈ b.sides ∨ ∃ f ∈ fs, ∃ i, x ∈ (b.sites.getD f ∅).getD i ∅ := by
  induction fs generalizing b with
  | nil => simp
  | cons f fs ih =>
    rw [List.foldl_cons, ih, mem_sides_place, sites_place, or_assoc]
    simp only [List.mem_cons, exists_eq_or_imp]

/-- **The barriers with sides** are those that a function waits at. -/
theorem mem_sides_iff : x ∈ (analyze s).sides ↔ ∃ f i, WaitsIn s f x i := by
  simp only [WaitsIn, analyze_eq_foldl, sites_foldl_place]
  rw [mem_sides_foldl_place, sides_summarised]
  constructor
  · rintro (hmem | ⟨f, -, hwait⟩)
    · exact absurd hmem TreeMap.not_mem_emptyc
    · exact ⟨f, hwait⟩
  · rintro ⟨f, i, hwait⟩
    exact .inr ⟨f, mem_visits_iff.2 ((grounded_summarised s).sites hwait).1, i, hwait⟩

/-- A barrier with sides is the pointer of a wait in a function that is analysed. -/
theorem waitedFor_of_mem_sides (hx : x ∈ (analyze s).sides) : WaitedFor s x := by
  obtain ⟨f, i, hwait⟩ := mem_sides_iff.1 hx
  exact hwait.spec.2.2

end Barriers

end DataRace
