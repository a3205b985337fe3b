import DataRace.Proofs.PointsTo.Propagation
import DataRace.Proofs.Program.Library

/-!
# DataRace.Proofs.PointsTo.Linking

Linking calls and thread starts to functions.

A call is linked to a function at most once.  The link pays for the one node
that it may put in the queue, so linking too never raises the debt:

* `advances_linkSpawn`, `advances_linkCall`: linking keeps the invariant and
  leaves the link recorded with all that follows from it.
-/

namespace DataRace

open Std Assignment

namespace PointsTo.Solver

open Program

variable {p : Program} {variableIndex : Bool} {A : Assignment} {s s' : Solver}

theorem returned_lt (hp : p.WellFormed) {f v : Nat} (h : returned? p f = some v) :
    v < p.values.size := by
  unfold returned? at h
  split at h
  · next w hop =>
    obtain ⟨i, -, hi⟩ := Option.map_eq_some_iff.1 hop
    refine hp.operand_lt (i := i) ?_
    rw [hi, h]
    exact List.mem_singleton_self v
  · cases h

/-- Values are nodes. -/
theorem lt_nodeCount {v : Nat} (h : v < p.values.size) : v < nodeCount p := Nat.lt_add_right _ h

/-- A flow between values of the program; that of a join says which join it comes from. -/
theorem advances_addFlow_values (h : Inv p variableIndex A s) {a b : Nat} {k : EdgeKind}
    (ha : a < p.values.size) (hb : b < p.values.size) (hsub : A.of a ⊆ A.of b)
    (hk : isFlow k = true) (hjoin : ∀ i, k = .join i → Justified p variableIndex A ⟨a, b, k⟩) :
    Advances p variableIndex A s (s.addFlow a b k) ∧ b ∈ (s.addFlow a b k).flow a := by
  have hnode : A.node p a ⊆ A.node p b := by rwa [node_value ha, node_value hb]
  refine advances_addFlow h (lt_nodeCount ha) (lt_nodeCount hb) hnode ?_ hk
  cases k with
  | copy => exact hnode
  | call | ret | fork => trivial
  | join i => exact hjoin i rfl
  | addr | load | store | field | index => cases hk

/-! ## thread starts -/

/-- The state with another set of routines at a site. -/
def setSpawnees (s : Solver) (i : InstId) (set : IdSet) : Solver :=
  { s with result.spawneeMap := s.result.spawneeMap.insert i set }

theorem Inv.setSpawnees (h : Inv p variableIndex A s) {i : Nat} {t : IdSet}
    (hset : ∀ {f : Nat}, f ∈ t → f ∈ A.spawnees i) : Inv p variableIndex A (s.setSpawnees i t) :=
  { h with
    spawnees := by
      intro j f hf
      change f ∈ (s.result.spawneeMap.insert i t).getD j ∅ at hf
      rw [IdMap.getD_insert] at hf
      split at hf
      · next heq => exact heq ▸ hset hf
      · exact h.spawnees hf }

/-- A site is touched, and perhaps one routine is added that turns out to be linked. -/
theorem Grows.of_setSpawnees {i : Nat} {set : IdSet}
    (hsub : ∀ {f : Nat}, f ∈ s.result.spawneeMap.getD i ∅ → f ∈ set)
    (hnew : ∀ {f : Nat}, f ∈ set → f ∈ s.result.spawneeMap.getD i ∅ ∨ StartLinked p s' i f)
    (hg : Grows p (s.setSpawnees i set) s') : Grows p s s' := by
  have hmap {j : Nat} : (s.setSpawnees i set).result.spawneeMap.getD j ∅ =
      if i = j then set else s.result.spawneeMap.getD j ∅ := IdMap.getD_insert
  refine { hg with spawnees := ?_, sites := ?_, started := ?_ }
  · intro j f hf
    refine hg.spawnees ?_
    rw [hmap]
    split
    · next heq => exact hsub (heq ▸ hf)
    · exact hf
  · exact fun hj => hg.sites (TreeMap.mem_insert.2 (.inr hj))
  · intro j f hf
    obtain hf | hf := hg.started hf
    · rw [hmap] at hf
      split at hf
      · next heq => exact heq ▸ hnew hf
      · exact .inl hf
    · exact .inr hf

/-- The flow that a started routine brings. -/
def startFlow (p : Program) (s : Solver) (i : InstId) (f : FuncId) : Solver :=
  match (p.func f).isDeclaration, p.routineArg i, (p.func f).params with
  | false, some arg, param :: _ => s.addFlow arg param (.fork i)
  | _, _, _ => s

theorem linkSpawn_eq (s : Solver) (i f : Nat) : linkSpawn p s i f =
    if (s.result.spawneeMap.getD i ∅).contains f then s
    else startFlow p (s.setSpawnees i ((s.result.spawneeMap.getD i ∅).insert f)) i f := rfl

theorem advances_startFlow (hp : p.WellFormed) (hA : A.Closed p variableIndex)
    (h : Inv p variableIndex A s) {i f : Nat} (hf : f ∈ A.spawnees i) :
    Advances p variableIndex A s (startFlow p s i f) ∧ StartLinked p (startFlow p s i f) i f := by
  unfold startFlow
  split
  · next arg param params hd harg hparams =>
    have hparam_lt := hp.param_lt (f := f) (v := param) (by rw [hparams]; exact List.mem_cons_self)
    obtain ⟨hadv, hmem⟩ := advances_addFlow_values (k := .fork i) h (entryArg_lt hp harg) hparam_lt
      (hA.startArgument hf hd harg hparams) rfl (by simp)
    refine ⟨hadv, fun _ a q qs ha hq => ?_⟩
    cases harg.symm.trans ha
    cases hparams.symm.trans hq
    exact hmem
  · next hother =>
    exact ⟨h.advances_refl, fun hd _ _ _ ha hq => (hother _ _ _ hd ha hq).elim⟩

/-- A thread start runs a routine: the argument flows to the first parameter. -/
theorem advances_linkSpawn (hp : p.WellFormed) (hA : A.Closed p variableIndex)
    (h : Inv p variableIndex A s) {i f : Nat} (hf : f ∈ A.spawnees i) :
    Advances p variableIndex A s (linkSpawn p s i f) ∧
      f ∈ (linkSpawn p s i f).result.spawneeMap.getD i ∅ := by
  rw [linkSpawn_eq]
  split
  · next hmem => exact ⟨h.advances_refl, TreeSet.contains_iff_mem.1 hmem⟩
  · have hset := h.setSpawnees (i := i) (t := (s.result.spawneeMap.getD i ∅).insert f)
      fun hg => (IdSet.mem_insert.1 hg).elim (fun heq => heq ▸ hf) h.spawnees
    obtain ⟨hadv, hlinked⟩ := advances_startFlow hp hA hset hf
    refine ⟨⟨hadv.inv, ?_, hadv.debt_le⟩, ?_⟩
    · refine .of_setSpawnees (fun hg => IdSet.mem_insert.2 (.inr hg)) (fun hg => ?_) hadv.grows
      exact (IdSet.mem_insert.1 hg).elim (fun heq => .inr (heq ▸ hlinked)) .inl
    · refine hadv.grows.spawnees ?_
      change f ∈ (s.result.spawneeMap.insert i _).getD i ∅
      rw [IdMap.getD_insert, if_pos rfl]
      exact IdSet.mem_insert.2 (.inl rfl)

/-! ## calls -/

/-- The address of a function points to it in every closed assignment. -/
theorem mem_of_asFunction (hp : p.WellFormed) (hA : A.Closed p variableIndex) {v g : Nat}
    (hv : v < p.values.size) (hg : p.asFunction v = some g) :
    ∃ o ∈ A.of v, ((objects p).obj o).origin = .function g := by
  have hdef : (p.value v).definition = .function g := by
    unfold asFunction at hg
    split at hg
    · next hdef =>
      cases hg
      exact hdef
    · cases hg
  obtain ⟨hlt, rfl⟩ := hp.addr_iff.2 ⟨hv, hdef⟩
  exact ⟨_, hA.function hlt, origin_funcObj hlt⟩

/-- Record a thread start with the routine it names, or wait for what its operand points to. -/
def startSite (p : Program) (s : Solver) (i : InstId) : Solver :=
  let s := s.setSpawnees i (s.result.spawneeMap.getD i ∅)
  match p.routine i with
  | none => s
  | some v =>
    match p.asFunction v with
    | some g => linkSpawn p s i g
    | none => s.enqueue v

theorem linkLibrary_eq (s : Solver) (i f : Nat) : linkLibrary p s i f =
    match p.libraryFunc? f with
    | some .spawn | some .parallelFor => startSite p s i
    | some _ => s
    | none =>
      match p.result i with
      | some r => s.grow r [s.result.unknown]
      | none => s := rfl

theorem startSite_spec (hp : p.WellFormed) (hA : A.Closed p variableIndex)
    (h : Inv p variableIndex A s) (i : Nat) :
    Inv p variableIndex A (startSite p s i) ∧ Grows p s (startSite p s i) ∧
      debt p (startSite p s i) ≤ debt p s + 1 ∧ i ∈ (startSite p s i).result.spawneeMap ∧
      ∀ {v g : Nat}, p.routine i = some v → p.asFunction v = some g →
        g ∈ (startSite p s i).result.spawneeMap.getD i ∅ := by
  have hset := h.setSpawnees (i := i) (t := s.result.spawneeMap.getD i ∅) h.spawnees
  have hgrows {s' : Solver} (hg : Grows p (s.setSpawnees i (s.result.spawneeMap.getD i ∅)) s') :
      Grows p s s' := .of_setSpawnees id .inl hg
  have hdebt : debt p (s.setSpawnees i (s.result.spawneeMap.getD i ∅)) = debt p s := rfl
  have hsite : i ∈ (s.setSpawnees i (s.result.spawneeMap.getD i ∅)).result.spawneeMap :=
    TreeMap.mem_insert_self
  simp only [startSite]
  split
  · next hr =>
    exact ⟨hset, hgrows (.refl _), by omega, hsite, fun hv => absurd (hr.symm.trans hv) nofun⟩
  · next v hr =>
    split
    · next g hg =>
      obtain ⟨o, ho, horg⟩ := mem_of_asFunction hp hA (entryArg_lt hp hr) hg
      obtain ⟨hadv, hmem⟩ := advances_linkSpawn hp hA hset
        (hA.start (isThreadStart_of_routine hr) hr ho horg)
      refine ⟨hadv.inv, hgrows hadv.grows, ?_, hadv.grows.sites hsite, fun hv hg' => ?_⟩
      · have := hadv.debt_le
        omega
      · cases hr.symm.trans hv
        cases hg.symm.trans hg'
        exact hmem
    · next hg =>
      refine ⟨hset.enqueue v, hgrows (grows_enqueue v), debt_enqueue v, ?_, fun hv hg' => ?_⟩
      · rw [result_enqueue]
        exact hsite
      · cases hr.symm.trans hv
        cases hg.symm.trans hg'

/-- A library function is linked; the one node this may queue is what the link pays for. -/
theorem linkLibrary_spec (hp : p.WellFormed) (hA : A.Closed p variableIndex)
    (h : Inv p variableIndex A s) {i f : Nat} (hf : f ∈ A.callees i)
    (hd : (p.func f).isDeclaration = true) :
    Inv p variableIndex A (linkLibrary p s i f) ∧ Grows p s (linkLibrary p s i f) ∧
      debt p (linkLibrary p s i f) ≤ debt p s + 1 ∧ CallLinked p (linkLibrary p s i f) i f := by
  have hlinked {s' : Solver} (hunk : p.libraryFunc? f = none → ∀ {r : Nat}, p.result i = some r →
        (objects p).unknown ∈ s'.result.nodePts r)
      (hstart : p.libraryFunc? f = some .spawn ∨ p.libraryFunc? f = some .parallelFor →
        i ∈ s'.result.spawneeMap ∧ ∀ {v g : Nat}, p.routine i = some v → p.asFunction v = some g →
          g ∈ s'.result.spawneeMap.getD i ∅) : CallLinked p s' i f :=
    ⟨fun hnot => absurd (hd.symm.trans hnot) nofun, fun hnot => absurd (hd.symm.trans hnot) nofun,
      fun _ => hunk, hstart⟩
  obtain ⟨hinv, hgrows, hdebt, hsite⟩ := startSite_spec hp hA h i
  rw [linkLibrary_eq]
  split
  · next hlib =>
    exact ⟨hinv, hgrows, hdebt, hlinked (fun hnone => absurd (hlib.symm.trans hnone) nofun)
      fun _ => hsite⟩
  · next hlib =>
    exact ⟨hinv, hgrows, hdebt, hlinked (fun hnone => absurd (hlib.symm.trans hnone) nofun)
      fun _ => hsite⟩
  · next k hspawn hfor hlib =>
    refine ⟨h, .refl s, by omega, hlinked (fun hnone => absurd (hlib.symm.trans hnone) nofun) ?_⟩
    rintro (hk | hk)
    · exact absurd (Option.some.inj (hlib.symm.trans hk)) hspawn
    · exact absurd (Option.some.inj (hlib.symm.trans hk)) hfor
  · next hlib =>
    have hstart : ¬(p.libraryFunc? f = some .spawn ∨ p.libraryFunc? f = some .parallelFor) := by
      rw [hlib]
      rintro (hk | hk) <;> cases hk
    split
    · next r hr =>
      have hr_lt := result_lt hp hr
      have hadv := advances_grow h (l := [s.result.unknown]) (lt_nodeCount hr_lt) fun o ho => by
        rw [List.mem_singleton.1 ho, h.unknown, node_value hr_lt]
        exact hA.unrecognised hf hd hlib hr
      have hdebt' := hadv.debt_le
      refine ⟨hadv.inv, hadv.grows, by omega,
        hlinked (fun _ r' hr' => ?_) fun hk => absurd hk hstart⟩
      cases hr.symm.trans hr'
      exact (mem_nodePts_grow (h.pts_size ▸ lt_nodeCount hr_lt)).2
        (.inr ⟨rfl, List.mem_singleton.2 h.unknown.symm⟩)
    · next hr =>
      refine ⟨h, .refl s, by omega, hlinked (fun _ r' hr' => ?_) fun hk => absurd hk hstart⟩
      cases hr.symm.trans hr'

/-- The state with another set of callees at a call. -/
def setCallees (s : Solver) (i : InstId) (set : IdSet) : Solver :=
  { s with result.calleeMap := s.result.calleeMap.insert i set }

theorem Inv.setCallees (h : Inv p variableIndex A s) {i : Nat} {t : IdSet}
    (hset : ∀ {f : Nat}, f ∈ t → f ∈ A.callees i) : Inv p variableIndex A (s.setCallees i t) :=
  { h with
    callees := by
      intro j f hf
      change f ∈ (s.result.calleeMap.insert i t).getD j ∅ at hf
      rw [IdMap.getD_insert] at hf
      split at hf
      · next heq => exact heq ▸ hset hf
      · exact h.callees hf }

theorem Grows.of_setCallees {i f : Nat} (hnew : CallLinked p s' i f)
    (hg : Grows p (s.setCallees i ((s.result.calleeMap.getD i ∅).insert f)) s') : Grows p s s' := by
  have hmap {j : Nat} :
    (s.setCallees i ((s.result.calleeMap.getD i ∅).insert f)).result.calleeMap.getD
      j ∅ = if i = j then (s.result.calleeMap.getD i ∅).insert f else s.result.calleeMap.getD j ∅ :=
    IdMap.getD_insert
  refine { hg with callees := ?_, linked := ?_ }
  · intro j g hf
    refine hg.callees ?_
    rw [hmap]
    split
    · next heq => exact IdSet.mem_insert.2 (.inr (heq ▸ hf))
    · exact hf
  · intro j g hmem
    obtain hf | hf := hg.linked hmem
    · rw [hmap] at hf
      split at hf
      · next heq =>
        subst heq
        exact (IdSet.mem_insert.1 hf).elim (fun heq => .inr (heq ▸ hnew)) .inl
      · exact .inl hf
    · exact .inr hf

/-- A new link is worth one node in the queue. -/
theorem debt_setCallees {i f : Nat} (hi : i < p.insts.size)
    (hnew : f ∉ s.result.calleeMap.getD i ∅) :
    debt p (s.setCallees i ((s.result.calleeMap.getD i ∅).insert f)) + 1 ≤ debt p s := by
  have hmap {j : Nat} :
    (s.setCallees i ((s.result.calleeMap.getD i ∅).insert f)).result.calleeMap.getD
      j ∅ = if i = j then (s.result.calleeMap.getD i ∅).insert f else s.result.calleeMap.getD j ∅ :=
    IdMap.getD_insert
  have hsize : ((s.result.calleeMap.getD i ∅).insert f).size =
      (s.result.calleeMap.getD i ∅).size + 1 := by
    rw [TreeSet.size_insert, if_neg (TreeSet.contains_iff_mem.not.2 hnew)]
  have hlinks : links p s < links p (s.setCallees i ((s.result.calleeMap.getD i ∅).insert f)) := by
    refine Finset.sum_lt_sum (fun j _ => ?_) ⟨i, Finset.mem_range.2 hi, ?_⟩
    · rw [hmap]
      split
      · next heq => exact heq ▸ TreeSet.size_le_size_insert
      · exact Nat.le_refl _
    · rw [hmap, if_pos rfl, hsize]
      exact Nat.lt_succ_self _
  change (s.queue.length : Int) - weight p s - _ + 1 ≤ _
  rw [debt]
  omega

/-- The flows that a call of a defined function brings. -/
def callFlow (p : Program) (s : Solver) (i : InstId) (f : FuncId) : Solver :=
  let s := ((p.callArgs i).zip (p.func f).params).foldl
    (fun s (a, q) => s.addFlow a q (.call i)) s
  match returned? p f, p.result i with
  | some v, some r => s.addFlow v r (.ret i)
  | _, _ => s

theorem linkCall_eq (s : Solver) (i f : Nat) : linkCall p s i f =
    if (s.result.calleeMap.getD i ∅).contains f then s
    else
      let s := s.setCallees i ((s.result.calleeMap.getD i ∅).insert f)
      if (p.func f).isDeclaration then linkLibrary p s i f else callFlow p s i f := rfl

theorem advances_callFlow (hp : p.WellFormed) (hA : A.Closed p variableIndex)
    (h : Inv p variableIndex A s) {i f : Nat} (hf : f ∈ A.callees i)
    (hd : (p.func f).isDeclaration = false) :
    Advances p variableIndex A s (callFlow p s i f) ∧ CallLinked p (callFlow p s i f) i f := by
  have hlib : p.libraryFunc? f = none := by
    rw [libraryFunc?, libraryEntry?, hd]
    rfl
  obtain ⟨hargs, hflow⟩ :=
    advances_foldl (f := fun s (x : Nat × Nat) => s.addFlow x.1 x.2 (.call i))
    (l := (p.callArgs i).zip (p.func f).params) (Q := fun s x => x.2 ∈ s.flow x.1)
    (fun {s x} hx h => advances_addFlow_values h (callArgs_lt hp (List.of_mem_zip hx).1)
      (hp.param_lt (List.of_mem_zip hx).2) (hA.argument hf hd hx) rfl (by simp))
    (fun hext hx => hext.flow hx) h
  have hlinked {s' : Solver} (hext : Extends p (((p.callArgs i).zip (p.func f).params).foldl
        (fun s (x : Nat × Nat) => s.addFlow x.1 x.2 (.call i)) s) s')
      (hret : ∀ {v r : Nat}, returned? p f = some v → p.result i = some r → r ∈ s'.flow v) :
      CallLinked p s' i f := by
    refine ⟨fun _ a q hx => hext.flow (hflow _ hx), fun _ => hret, fun hd' => ?_, ?_⟩
    · simp [hd] at hd'
    · rw [hlib]
      rintro (hk | hk) <;> cases hk
  simp only [callFlow]
  split
  · next v r hv hr =>
    obtain ⟨hadv, hmem⟩ := advances_addFlow_values (k := .ret i) hargs.inv (returned_lt hp hv)
      (result_lt hp hr) (hA.returned hf hd hv hr) rfl (by simp)
    refine ⟨hargs.trans hadv, hlinked hadv.grows.toExtends fun hv' hr' => ?_⟩
    cases hv.symm.trans hv'
    cases hr.symm.trans hr'
    exact hmem
  · next hother =>
    exact ⟨hargs, hlinked (.refl _) fun hv hr => (hother _ _ hv hr).elim⟩

/-- A call reaches a function. -/
theorem advances_linkCall (hp : p.WellFormed) (hA : A.Closed p variableIndex)
    (h : Inv p variableIndex A s) {i f : Nat} (hi : i < p.insts.size) (hf : f ∈ A.callees i) :
    Advances p variableIndex A s (linkCall p s i f) ∧
      f ∈ (linkCall p s i f).result.calleeMap.getD i ∅ := by
  rw [linkCall_eq]
  split
  · next hmem => exact ⟨h.advances_refl, TreeSet.contains_iff_mem.1 hmem⟩
  · next hnot =>
    have hset := h.setCallees (i := i) (t := (s.result.calleeMap.getD i ∅).insert f)
      fun hg => (IdSet.mem_insert.1 hg).elim (fun heq => heq ▸ hf) h.callees
    have hpaid := debt_setCallees hi (TreeSet.contains_iff_mem.not.1 hnot)
    have hmem : f ∈ (s.setCallees i ((s.result.calleeMap.getD i ∅).insert f)).result.calleeMap.getD
        i ∅ := by
      change f ∈ (s.result.calleeMap.insert i _).getD i ∅
      rw [IdMap.getD_insert, if_pos rfl]
      exact IdSet.mem_insert.2 (.inl rfl)
    dsimp only
    split
    · next hd =>
      obtain ⟨hinv, hgrows, hdebt, hlinked⟩ := linkLibrary_spec hp hA hset hf hd
      exact ⟨⟨hinv, hgrows.of_setCallees hlinked, by omega⟩, hgrows.callees hmem⟩
    · next hd =>
      obtain ⟨hadv, hlinked⟩ := advances_callFlow hp hA hset hf (Bool.eq_false_iff.2 hd)
      have hdebt := hadv.debt_le
      exact ⟨⟨hadv.inv, hadv.grows.of_setCallees hlinked, by omega⟩, hadv.grows.callees hmem⟩

end PointsTo.Solver

end DataRace
