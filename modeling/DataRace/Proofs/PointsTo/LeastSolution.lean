import DataRace.Proofs.PointsTo.Worklist
import DataRace.Proofs.Program.Script

/-!
# DataRace.Proofs.PointsTo.LeastSolution

Matching joins with spawns, and the result of the whole analysis.

A round that adds no edge when it matches joins has found all matches, and
every other round adds an edge from a routine to a join, of which there are
only so many.  So the analysis ends with nothing left to record:

* `linkJoins_spec`: what matching all joins does;
* `rounds_spec`: the rounds end with all nodes saturated and all joins matched;
* `analyze_least`: the points-to sets with the calls, threads and joins they
  resolve are the least assignment that meets all constraints.
-/

namespace DataRace

open Std Assignment Program

namespace PointsTo

/-! ## aliases -/

theorem meet_iff {a b : IdSet} : meet a b = true ↔ ∃ o, o ∈ a ∧ o ∈ b := by
  rw [meet, IdSet.any_iff]
  simp only [TreeSet.contains_iff_mem]

/-- The test for aliases is what it says of the assignment. -/
theorem mayAlias_iff {t : PointsTo} {a b : ValueId} :
    t.mayAlias a b = true ↔ t.assignment.MayAlias t.unknown a b := by
  simp only [mayAlias, MayAlias, Set.Nonempty, assignment, Set.mem_inter_iff, Set.mem_ofPred_eq]
  split
  · next hunk =>
    rw [Bool.or_eq_true, TreeSet.contains_iff_mem, TreeSet.contains_iff_mem] at hunk
    rw [Bool.and_eq_true, Bool.not_eq_true', Bool.not_eq_true',
      TreeSet.isEmpty_eq_false_iff_exists_mem, TreeSet.isEmpty_eq_false_iff_exists_mem]
    refine ⟨fun h => .inr ⟨hunk, h⟩, ?_⟩
    rintro (⟨o, ha, hb⟩ | ⟨-, h⟩)
    · exact ⟨⟨o, ha⟩, ⟨o, hb⟩⟩
    · exact h
  · next hunk =>
    rw [Bool.or_eq_true, TreeSet.contains_iff_mem, TreeSet.contains_iff_mem] at hunk
    rw [meet_iff]
    exact ⟨.inl, fun h => h.resolve_right fun h => hunk h.1⟩

namespace Solver

variable {p : Program} {variableIndex : Bool} {A : Assignment} {s s' s'' : Solver}

/-- Pointers that may alias in the state may alias in an assignment above it. -/
theorem Inv.mayAlias (h : Inv p variableIndex A s) {a b : Nat} (ha : a < p.values.size)
    (hb : b < p.values.size) (halias : s.result.mayAlias a b = true) :
    A.MayAlias (objects p).unknown a b := by
  rw [mayAlias_iff, h.unknown] at halias
  refine halias.mono (fun o ho => ?_) fun o ho => ?_
  · exact node_value ha ▸ h.pts ho
  · exact node_value hb ▸ h.pts ho

/-! ## one join and one spawn -/

/-- The state with another set of spawns at a join. -/
def setJoined (s : Solver) (j : InstId) (set : IdSet) : Solver :=
  { s with result.joinMap := s.result.joinMap.insert j set }

/-- What the routines of a spawn return flows to the result of a join. -/
def joinFlows (p : Program) (r : ValueId) (i : InstId) (fs : List FuncId) (s : Solver) : Solver :=
  fs.foldl (fun s f => match returned? p f with
    | some v => s.addFlow v r (.join i)
    | none => s) s

theorem linkJoin_eq (j i : Nat) (s : Solver) : linkJoin p j s i =
    match joinPointer? p j, p.result j, p.threadId i with
    | some ptr, some r, some tid =>
      if s.result.mayAlias ptr tid then
        joinFlows p r i (s.result.spawnees i)
          (s.setJoined j ((s.result.joinMap.getD j ∅).insert i))
      else s
    | _, _, _ => s := rfl

/-- Only join edges are added, and without a new edge only the matches are new. -/
structure JoinsOnly (s s' : Solver) (new : List Edge) : Prop where
  edges : s'.result.graph.edges.toList = s.result.graph.edges.toList ++ new
  joins : ∀ e ∈ new, ∃ i, e.kind = .join i
  quiet : new = [] → ∃ joins, s' = { s with result.joinMap := joins }

theorem JoinsOnly.refl (s : Solver) : JoinsOnly s s [] :=
  ⟨(List.append_nil _).symm, nofun, fun _ => ⟨s.result.joinMap, rfl⟩⟩

theorem JoinsOnly.trans {new new' : List Edge} (h : JoinsOnly s s' new)
    (h' : JoinsOnly s' s'' new') :
    JoinsOnly s s'' (new ++ new') where
  edges := by rw [h'.edges, h.edges, List.append_assoc]
  joins e he := (List.mem_append.1 he).elim (h.joins e) (h'.joins e)
  quiet hnil := by
    obtain ⟨hnew, hnew'⟩ := List.append_eq_nil_iff.1 hnil
    obtain ⟨joins, rfl⟩ := h.quiet hnew
    obtain ⟨joins', rfl⟩ := h'.quiet hnew'
    exact ⟨joins', rfl⟩

theorem graph_grow (n : Nat) (os : List ObjId) : (s.grow n os).result.graph = s.result.graph := by
  obtain heq | ⟨-, heq⟩ := grow_eq s n os
  · rw [heq]
  · rw [heq, result_enqueue]
    rfl

theorem graph_addCopy (src dst : Nat) : (s.addCopy src dst).result.graph = s.result.graph := by
  rw [addCopy_eq]
  split
  · rfl
  · rw [graph_grow]
    rfl

/-- A join edge that is there already has its flow, so adding it again changes nothing. -/
theorem joinsOnly_addFlow (h : Ready p variableIndex A s) (src dst i : Nat) :
    ∃ new, JoinsOnly s (s.addFlow src dst (.join i)) new := by
  by_cases hmem : s.result.graph.contains ⟨src, dst, .join i⟩ = true
  · have he := (h.inv.graph.mem_outEdges.1 (List.contains_iff_mem.1 hmem)).1
    have hflow : dst ∈ s.flow src := h.joinFlow he rfl
    have hedge : s.addEdge src dst (.join i) = s := by
      rw [addEdge, AssignGraph.insert, if_pos hmem]
    refine ⟨[], ?_⟩
    rw [addFlow, hedge, addCopy_eq, if_pos (TreeSet.contains_iff_mem.2 hflow)]
    exact .refl s
  · refine ⟨[⟨src, dst, .join i⟩], ?_, fun e he => ⟨i, by rw [List.mem_singleton.1 he]⟩, nofun⟩
    rw [addFlow, graph_addCopy, addEdge, AssignGraph.insert, if_neg hmem]
    exact Array.toList_push

/-- The match of a join and a spawn is recorded with all that follows, by the aliases of `s`. -/
def Matched (p : Program) (s s' : Solver) (j i : Nat) : Prop :=
  ∀ {ptr r tid}, joinPointer? p j = some ptr → p.result j = some r → p.threadId i = some tid →
    s.result.mayAlias ptr tid = true → i ∈ s'.result.joinMap.getD j ∅ ∧
      ∀ {f v : Nat}, f ∈ s.result.spawneeMap.getD i ∅ → returned? p f = some v → r ∈ s'.flow v

theorem Matched.mono {j i : Nat} (h : Matched p s s' j i) (hext : Extends p s' s'')
    (hsame : ∃ joins, s'' = { s with result.joinMap := joins }) : Matched p s'' s'' j i := by
  obtain ⟨joins, rfl⟩ := hsame
  intro ptr r tid hptr hr htid halias
  obtain ⟨hjoined, hflow⟩ := h hptr hr htid halias
  exact ⟨hext.joined hjoined, fun hf hv => hext.flow (hflow hf hv)⟩

/-- What an operation on joins leads to. -/
structure MatchStep (p : Program) (variableIndex : Bool) (A : Assignment)
    (s s' : Solver) : Prop where
  advances : Advances p variableIndex A s s'
  joinsOnly : ∃ new, JoinsOnly s s' new

theorem MatchStep.refl (h : Inv p variableIndex A s) : MatchStep p variableIndex A s s :=
  ⟨h.advances_refl, [], .refl s⟩

theorem MatchStep.trans (h : MatchStep p variableIndex A s s')
    (h' : MatchStep p variableIndex A s' s'') :
    MatchStep p variableIndex A s s'' := by
  obtain ⟨hadv, new, hnew⟩ := h
  obtain ⟨hadv', new', hnew'⟩ := h'
  exact ⟨hadv.trans hadv', new ++ new', hnew.trans hnew'⟩

theorem MatchStep.ready (h : MatchStep p variableIndex A s s') (hs : Ready p variableIndex A s) :
    Ready p variableIndex A s' :=
  hs.extend h.advances.inv h.advances.grows.toExtends h.advances.debt_le

theorem matchStep_joinFlows (hp : p.WellFormed) (hb : A.Bounded p) {i j r : Nat}
    (hi : i < p.insts.size) (hr : p.result j = some r) {l : List Nat}
    (hfs : ∀ f ∈ l, f ∈ A.spawnees i)
    (hsub : ∀ {f v : Nat}, f ∈ A.spawnees i → returned? p f = some v → A.of v ⊆ A.of r)
    (h : Ready p variableIndex A s) :
    MatchStep p variableIndex A s (joinFlows p r i l s) ∧
      ∀ f ∈ l, ∀ {v : Nat}, returned? p f = some v → r ∈ (joinFlows p r i l s).flow v := by
  induction l generalizing s with
  | nil => exact ⟨.refl h.inv, by simp⟩
  | cons f l ih =>
    rw [joinFlows, List.foldl_cons, ← joinFlows]
    have hf := hfs f List.mem_cons_self
    have hrest {t : Solver} (hstep : MatchStep p variableIndex A s t)
        (hflow : ∀ {v : Nat}, returned? p f = some v → r ∈ t.flow v) :
        MatchStep p variableIndex A s (joinFlows p r i l t) ∧
          ∀ g ∈ f :: l, ∀ {v : Nat}, returned? p g = some v → r ∈ (joinFlows p r i l t).flow v := by
      obtain ⟨hsteps, hflows⟩ := ih (fun g hg => hfs g (List.mem_cons_of_mem f hg)) (hstep.ready h)
      refine ⟨hstep.trans hsteps, fun g hg v hv => ?_⟩
      obtain rfl | hg := List.mem_cons.1 hg
      · exact hsteps.advances.grows.flow (hflow hv)
      · exact hflows g hg hv
    split
    · next v hv =>
      obtain ⟨hadv, hmem⟩ := advances_addFlow_values (k := .join i) h.inv (returned_lt hp hv)
        (result_lt hp hr) (hsub hf hv) rfl
        fun _ _ => ⟨j, lt_of_result hr, hi, f, hb.spawnees i hf, hv, hr⟩
      refine hrest ⟨hadv, joinsOnly_addFlow h v r i⟩ fun hv' => ?_
      cases hv.symm.trans hv'
      exact hmem
    · next hv => exact hrest (.refl h.inv) fun hv' => by simp [hv] at hv'

theorem matchStep_setJoined (h : Inv p variableIndex A s) {j i : Nat} (hi : i ∈ A.joined j) :
    MatchStep p variableIndex A s (s.setJoined j ((s.result.joinMap.getD j ∅).insert i)) := by
  have hmap {k : Nat} : (s.setJoined j ((s.result.joinMap.getD j ∅).insert i)).result.joinMap.getD
      k ∅ = if j = k then (s.result.joinMap.getD j ∅).insert i else s.result.joinMap.getD k ∅ :=
    IdMap.getD_insert
  refine ⟨⟨{ h with joined := ?_ }, ?_, Int.le_refl _⟩, [], (List.append_nil _).symm, nofun,
    fun _ => ⟨_, rfl⟩⟩
  · intro k x hx
    rw [hmap] at hx
    split at hx
    · next heq =>
      subst heq
      exact (IdSet.mem_insert.1 hx).elim (fun heq => heq ▸ hi) h.joined
    · exact h.joined hx
  · have hrefl := Grows.refl (p := p) s
    exact
      { pts := id, flow := id, callees := id, spawnees := id, sites := id, edges := id
        linked := .inl
        started := .inl
        joinFlow := fun he _ => .inl he
        queue := id
        queued := .inl
        flowed := .inl
        joined := fun {k x} hx => by
          rw [hmap]
          split
          · next heq => exact IdSet.mem_insert.2 (.inr (heq ▸ hx))
          · exact hx }

theorem joinPointer_lt (hp : p.WellFormed) {j ptr : Nat} (h : joinPointer? p j = some ptr) :
    ptr < p.values.size := by
  unfold joinPointer? at h
  obtain ⟨v, -, h⟩ := Option.bind_eq_some_iff.1 h
  split at h
  · next hop =>
    cases h
    obtain ⟨i, -, hi⟩ := Option.map_eq_some_iff.1 hop
    exact hp.operand_lt (i := i) (by rw [hi]; exact List.mem_singleton_self ptr)
  · cases h

theorem matchStep_linkJoin (hp : p.WellFormed) (hA : A.Closed p variableIndex) (hb : A.Bounded p)
    (h : Ready p variableIndex A s) {j i : Nat} (hj : p.isJoin j = true) (hi : p.isSpawn i = true) :
    MatchStep p variableIndex A s (linkJoin p j s i) ∧ Matched p s (linkJoin p j s i) j i := by
  rw [linkJoin_eq]
  split
  · next ptr r tid hptr hr htid =>
    split
    · next halias =>
      have hptr_lt := joinPointer_lt hp hptr
      obtain ⟨hjoined, hsub⟩ := hA.join hj hi hptr hr htid
        (h.inv.mayAlias hptr_lt (entryArg_lt hp htid) halias)
      have hset := matchStep_setJoined h.inv hjoined
      obtain ⟨hflows, hflow⟩ := matchStep_joinFlows hp hb (lt_of_entryArg htid) hr
        (l := s.result.spawnees i) (fun f hf => h.inv.spawnees (TreeSet.mem_toList.1 hf)) hsub
        (hset.ready h)
      refine ⟨hset.trans hflows, fun hptr' hr' htid' _ => ⟨?_, fun hf hv => ?_⟩⟩
      · refine hflows.advances.grows.joined ?_
        change i ∈ (s.result.joinMap.insert j _).getD j ∅
        rw [IdMap.getD_insert, if_pos rfl]
        exact IdSet.mem_insert.2 (.inl rfl)
      · cases hr.symm.trans hr'
        exact hflow _ (TreeSet.mem_toList.2 hf) hv
    · next halias =>
      refine ⟨.refl h.inv, fun hptr' _ htid' halias' => ?_⟩
      cases hptr.symm.trans hptr'
      cases htid.symm.trans htid'
      exact absurd halias' halias
  · next hother =>
    exact ⟨.refl h.inv, fun hptr hr htid _ => (hother _ _ _ hptr hr htid).elim⟩

/-! ## all joins and all spawns -/

/-- The joins and spawns that are matched, in the order in which they are. -/
def joinPairs (p : Program) (t : PointsTo) : List (InstId × InstId) :=
  (t.calleeMap.keys.filter p.isJoin).flatMap fun j => (t.spawnSites.filter p.isSpawn).map (j, ·)

theorem linkJoins_eq (s : Solver) : linkJoins p s =
    (joinPairs p s.result).foldl (fun s x => linkJoin p x.1 s x.2) s := by
  simp only [linkJoins, joinPairs, List.foldl_flatMap, List.foldl_map]

theorem matchStep_foldl (hp : p.WellFormed) (hA : A.Closed p variableIndex) (hb : A.Bounded p)
    {xs : List (Nat × Nat)} (hxs : ∀ x ∈ xs, p.isJoin x.1 = true ∧ p.isSpawn x.2 = true)
    (h : Ready p variableIndex A s) :
    let t := xs.foldl (fun s x => linkJoin p x.1 s x.2) s
    MatchStep p variableIndex A s t ∧
      (t.result.graph.edges.size = s.result.graph.edges.size →
        (∃ joins, t = { s with result.joinMap := joins }) ∧ ∀ x ∈ xs, Matched p t t x.1 x.2) := by
  induction xs generalizing s with
  | nil => exact ⟨.refl h.inv, fun _ => ⟨⟨s.result.joinMap, rfl⟩, nofun⟩⟩
  | cons x xs ih =>
    obtain ⟨hj, hi⟩ := hxs x List.mem_cons_self
    obtain ⟨hstep, hmatched⟩ := matchStep_linkJoin hp hA hb h hj hi
    obtain ⟨hsteps, hquiet⟩ := ih (fun y hy => hxs y (List.mem_cons_of_mem x hy)) (hstep.ready h)
    refine ⟨hstep.trans hsteps, fun hsize => ?_⟩
    rw [List.foldl_cons] at hsize ⊢
    obtain ⟨new, hnew⟩ := hstep.joinsOnly
    obtain ⟨new', hnew'⟩ := hsteps.joinsOnly
    have hlen := congrArg List.length hnew.edges
    have hlen' := congrArg List.length hnew'.edges
    rw [List.length_append, Array.length_toList, Array.length_toList] at hlen hlen'
    obtain ⟨joins, hs'⟩ := hnew.quiet (List.length_eq_zero_iff.1 (by omega))
    obtain ⟨⟨joins', ht⟩, hmatches⟩ := hquiet (by omega)
    have hsame : ∃ joins, xs.foldl (fun s x => linkJoin p x.1 s x.2) (linkJoin p x.1 s x.2) =
        { s with result.joinMap := joins } := ⟨joins', by rw [ht, hs']⟩
    refine ⟨hsame, fun y hy => ?_⟩
    obtain rfl | hy := List.mem_cons.1 hy
    · exact hmatched.mono hsteps.advances.grows.toExtends hsame
    · exact hmatches y hy

/-- Matching all joins adds join edges, or leaves all joins matched and all else as it was. -/
theorem linkJoins_spec (hp : p.WellFormed) (hA : A.Closed p variableIndex) (hb : A.Bounded p)
    (h : Ready p variableIndex A s) :
    MatchStep p variableIndex A s (linkJoins p s) ∧
      ((linkJoins p s).result.graph.edges.size = s.result.graph.edges.size →
        (∃ joins, linkJoins p s = { s with result.joinMap := joins }) ∧
          ∀ {j i : Nat}, p.isJoin j = true → p.isSpawn i = true →
            Matched p (linkJoins p s) (linkJoins p s) j i) := by
  have hpairs : ∀ x ∈ joinPairs p s.result, p.isJoin x.1 = true ∧ p.isSpawn x.2 = true := by
    intro x hx
    unfold joinPairs at hx
    obtain ⟨j, hj, hx⟩ := List.mem_flatMap.1 hx
    obtain ⟨i, hi, rfl⟩ := List.mem_map.1 hx
    exact ⟨(List.mem_filter.1 hj).2, (List.mem_filter.1 hi).2⟩
  rw [linkJoins_eq]
  obtain ⟨hsteps, hquiet⟩ := matchStep_foldl hp hA hb hpairs h
  refine ⟨hsteps, fun hsize => ⟨(hquiet hsize).1, fun {j i} hj hi => ?_⟩⟩
  refine (hquiet hsize).2 (j, i) (List.mem_flatMap.2 ⟨j, List.mem_filter.2 ⟨?_, hj⟩,
    List.mem_map.2 ⟨i, List.mem_filter.2 ⟨?_, hi⟩, rfl⟩⟩)
  · obtain ⟨f, hf, -⟩ := exists_of_libraryCall? (beq_iff_eq.1 hj)
    exact TreeMap.mem_keys.2 (IdMap.mem_of_mem_getD ((h.inst (lt_of_directCallee hf)).direct hf))
  · obtain ⟨f, hf, hlib⟩ := exists_of_libraryCall? (beq_iff_eq.1 hi)
    have hlinked := h.linked ((h.inst (lt_of_directCallee hf)).direct hf)
    exact TreeMap.mem_keys.2 (hlinked.start (.inl hlib)).1

/-! ## rounds -/

/-- Whether an edge leads from a routine to a join. -/
def isJoinEdge (e : Edge) : Bool :=
  match e.kind with
  | .join _ => true
  | _ => false

/-- The number of edges from routines to joins. -/
def joinCount (s : Solver) : Nat := s.result.graph.edges.toList.countP isJoinEdge

theorem joinCount_eq_card (h : GraphInv p s.result.graph) :
    joinCount s = (s.result.graph.edges.toList.filter isJoinEdge).toFinset.card := by
  rw [joinCount, List.countP_eq_length_filter, List.toFinset_card_of_nodup (h.nodup.filter _)]

/-- There is at most one join edge for a join, a spawn and a routine. -/
theorem joinCount_le (h : Inv p variableIndex A s) :
    joinCount s ≤ p.insts.size * p.insts.size * p.funcs.size := by
  have hsub : (s.result.graph.edges.toList.filter isJoinEdge).toFinset ⊆
      ((Finset.range p.insts.size ×ˢ Finset.range p.insts.size) ×ˢ Finset.range p.funcs.size).image
        fun x => ⟨(returned? p x.2).getD 0, (p.result x.1.1).getD 0, .join x.1.2⟩ := by
    intro e he
    obtain ⟨hmem, hjoin⟩ := List.mem_filter.1 (List.mem_toFinset.1 he)
    have hjust := h.edge (Array.mem_toList_iff.1 hmem)
    unfold isJoinEdge at hjoin
    split at hjoin
    · next i hk =>
      rw [Justified, hk] at hjust
      obtain ⟨j, hj, hi, f, hf, hv, hr⟩ := hjust
      refine Finset.mem_image.2 ⟨((j, i), f), ?_, ?_⟩
      · simp only [Finset.mem_product, Finset.mem_range]
        exact ⟨⟨hj, hi⟩, hf⟩
      · rw [hv, hr, Option.getD_some, Option.getD_some, ← hk]
    · cases hjoin
  rw [joinCount_eq_card h.graph]
  refine (Finset.card_le_card hsub).trans (Finset.card_image_le.trans_eq ?_)
  simp

theorem Extends.joinCount_le (hs : GraphInv p s.result.graph) (h : Extends p s s') :
    joinCount s ≤ joinCount s' := by
  rw [joinCount_eq_card hs, joinCount, List.countP_eq_length_filter]
  refine (Finset.card_le_card fun e he => ?_).trans (List.toFinset_card_le _)
  obtain ⟨hmem, hjoin⟩ := List.mem_filter.1 (List.mem_toFinset.1 he)
  refine List.mem_toFinset.2 (List.mem_filter.2 ⟨?_, hjoin⟩)
  exact Array.mem_toList_iff.2 (h.edges (Array.mem_toList_iff.1 hmem))

/-- New edges are join edges, so they count. -/
theorem JoinsOnly.joinCount_eq {new : List Edge} (h : JoinsOnly s s' new) :
    joinCount s' = joinCount s + new.length := by
  rw [joinCount, h.edges, List.countP_append, ← joinCount]
  congr 1
  refine List.countP_eq_length.2 fun e he => ?_
  obtain ⟨i, hi⟩ := h.joins e he
  rw [isJoinEdge, hi]

/-- What holds when the analysis ends. -/
structure Solved (p : Program) (variableIndex : Bool) (A : Assignment) (s : Solver) : Prop where
  ready : Ready p variableIndex A s
  saturated : ∀ n, Saturated p variableIndex s n
  matched : ∀ {j i : Nat}, p.isJoin j = true → p.isSpawn i = true → Matched p s s j i

/-- The rounds end before their number runs out. -/
theorem rounds_spec (hp : p.WellFormed) (hA : A.Closed p variableIndex) (hb : A.Bounded p)
    {bound k : Nat} (hbound : p.insts.size + (nodeCount p * (objects p).objs.size +
      p.insts.size * p.funcs.size) < bound) (h : Ready p variableIndex A s)
    (hpending : Pending p variableIndex s)
    (hk : p.insts.size * p.insts.size * p.funcs.size < k + joinCount s)
    (hrounds : rounds (env p variableIndex) bound k s = .ok s') : Solved p variableIndex A s' := by
  induction k generalizing s with
  | zero =>
    have hle := joinCount_le h.inv
    omega
  | succ k ih =>
    simp only [rounds] at hrounds
    obtain ⟨t, hsolve, hlast⟩ := exists_of_bind_eq_ok hrounds
    have hdebt := h.debt_le
    obtain ⟨hready, hext, -, hsat⟩ := solve_spec hp hA hb h hpending (by omega) hsolve
    obtain ⟨hstep, hquiet⟩ := linkJoins_spec hp hA hb hready
    change (if (linkJoins p t).result.graph.edges.size = _ then Except.ok (linkJoins p t)
      else rounds _ _ _ (linkJoins p t)) = _ at hlast
    split at hlast
    · next hsize =>
      cases hlast
      obtain ⟨hsame, hmatched⟩ := hquiet hsize
      obtain ⟨joins, hu⟩ := hsame
      have hpts {n o : Nat} (ho : o ∈ (linkJoins p t).result.nodePts n) :
          o ∈ t.result.nodePts n := by
        rwa [hu] at ho
      refine ⟨hstep.ready hready, fun n => ⟨fun ho => ?_, fun {m o} hm ho => ?_⟩, hmatched⟩
      · exact ((hsat n).processed (hpts ho)).mono hstep.advances.grows.toExtends
      · rw [hu] at hm
        exact hstep.advances.grows.pts ((hsat n).passed hm (hpts ho))
    · next hsize =>
      refine ih (hstep.ready hready) (fun n => (hsat n).grows hstep.advances.grows) ?_ hlast
      obtain ⟨new, hnew⟩ := hstep.joinsOnly
      have hlen := congrArg List.length hnew.edges
      have hcount := hnew.joinCount_eq
      have hle := hext.joinCount_le h.inv.graph
      rw [List.length_append, Array.length_toList, Array.length_toList] at hlen
      omega

/-! ## the least solution -/

theorem exists_of_analyze {t : PointsTo} (h : analyze p variableIndex = .ok t) :
    ∃ s, rounds (env p variableIndex) (stepBound p (seed p)) (roundBound p) (seed p) = .ok s ∧
      s.result = t := by
  obtain ⟨s, hs, hok⟩ := exists_of_bind_eq_ok h
  cases hok
  exact ⟨s, hs, rfl⟩

/-- The analysis returns the result of a state in which nothing is left to record. -/
theorem solved_of_analyze (hp : p.WellFormed) (hA : A.Closed p variableIndex) (hb : A.Bounded p)
    {s : Solver} (h : rounds (env p variableIndex) (stepBound p (seed p)) (roundBound p) (seed p) =
      .ok s) : Solved p variableIndex A s := by
  obtain ⟨hready, hqueued⟩ := ready_seed hp hA
  refine rounds_spec hp hA hb ?_ hready (pending_seed hqueued) ?_ h
  · rw [stepBound, hready.inv.pts_size, hready.inv.objs.size_eq, Nat.mul_succ]
    omega
  · rw [roundBound]
    omega

theorem mem_callees {t : PointsTo} {i f : Nat} :
    f ∈ t.assignment.callees i ↔ f ∈ t.calleeMap.getD i ∅ := TreeSet.mem_toList

theorem mem_spawnees {t : PointsTo} {i f : Nat} :
    f ∈ t.assignment.spawnees i ↔ f ∈ t.spawneeMap.getD i ∅ := TreeSet.mem_toList

theorem mem_joined {t : PointsTo} {j i : Nat} :
    i ∈ t.assignment.joined j ↔ i ∈ t.joinMap.getD j ∅ := TreeSet.mem_toList

theorem Inv.mem_contents (h : Inv p variableIndex A s) {o x : Nat} :
    x ∈ s.result.assignment.contents o ↔ x ∈ s.result.nodePts (p.values.size + o) := by
  change x ∈ s.result.nodePts (s.result.graph.valueCount + o) ↔ _
  rw [h.graph.valueCount]

theorem Solved.subset_of_flow (h : Solved p variableIndex A s) {a b : Nat} (hflow : b ∈ s.flow a) :
    s.result.assignment.of a ⊆ s.result.assignment.of b :=
  fun _ ho => (h.saturated a).passed hflow ho

/-- A thread start runs all routines its operand points to: those it names and those the analysis
finds.  The address of a function points to nothing else, so the two agree. -/
theorem Solved.mem_spawnees_of_start (h : Solved p variableIndex (full p) s) (hp : p.WellFormed)
    {i v o f : Nat} (hi : p.isThreadStart i = true) (hv : p.routine i = some v)
    (ho : o ∈ s.result.assignment.of v) (hf : ((objects p).obj o).origin = .function f) :
    f ∈ s.result.spawneeMap.getD i ∅ := by
  cases hg : p.asFunction v with
  | none =>
    exact ((h.saturated v).processed ho).start (pointedRoutine?_eq_some.2 ⟨hi, hv, hg⟩) hf
  | some g =>
    have hfull : o ∈ (full p).of v := node_value (entryArg_lt hp hv) ▸ h.ready.inv.pts ho
    cases (hfull.2 g hg).symm.trans hf
    have hstart : p.libraryCall? i = some .spawn ∨ p.libraryCall? i = some .parallelFor := by
      simpa [isThreadStart, isSpawn, isParallelFor] using hi
    obtain ⟨c, hc, hlib⟩ : ∃ c, p.directCallee i = some c ∧
        (p.libraryFunc? c = some .spawn ∨ p.libraryFunc? c = some .parallelFor) := by
      obtain hk | hk := hstart
      · obtain ⟨c, hc, hlib⟩ := exists_of_libraryCall? hk
        exact ⟨c, hc, .inl hlib⟩
      · obtain ⟨c, hc, hlib⟩ := exists_of_libraryCall? hk
        exact ⟨c, hc, .inr hlib⟩
    have hlinked := h.ready.linked ((h.ready.inst (lt_of_directCallee hc)).direct hc)
    exact (hlinked.start hlib).2 hv hg

/-- Nothing is left to record, so the result meets every constraint. -/
theorem Solved.closed (h : Solved p variableIndex (full p) s) (hp : p.WellFormed) :
    s.result.assignment.Closed p variableIndex := by
  have hinv := h.ready.inv
  constructor
  case global => exact fun hg => (h.ready.global hg).1
  case function => exact fun hf => (h.ready.function hf).1
  case alloc =>
    intro i heap fields r hop hr
    obtain ⟨o, ho⟩ := exists_allocObj (lt_of_result hr) hop
    exact ⟨o, ho, ((h.ready.inst (lt_of_result hr)).alloc hop hr ho).1⟩
  case cast =>
    intro i src r hop hr
    exact h.subset_of_flow ((h.ready.inst (lt_of_result hr)).cast hop hr)
  case phi =>
    intro i ins r v b hop hr hv
    exact h.subset_of_flow ((h.ready.inst (lt_of_result hr)).phi hop hr hv)
  case load =>
    intro i ptr r o hop hr ho x hx
    exact (h.saturated _).passed (((h.saturated ptr).processed ho).load hop hr)
      (hinv.mem_contents.1 hx)
  case store =>
    intro i ptr val o hop ho x hx
    exact hinv.mem_contents.2 ((h.saturated val).passed
      (((h.saturated ptr).processed ho).store hop) hx)
  case field =>
    intro i base k idx r o o' hop hr ho hk
    exact ((h.saturated base).processed ho).field hop hr hk
  case index =>
    intro i base idx r o o' hop hr ho hk
    exact ((h.saturated base).processed ho).index hop hr hk
  case direct =>
    intro i f hf
    exact mem_callees.2 ((h.ready.inst (lt_of_directCallee hf)).direct hf)
  case indirect =>
    intro i v args o f hop ho hf
    exact mem_callees.2 (((h.saturated v).processed ho).call hop hf)
  case argument =>
    intro i f a q hf hd hq
    exact h.subset_of_flow ((h.ready.linked (mem_callees.1 hf)).argument hd hq)
  case returned =>
    intro i f v r hf hd hv hr
    exact h.subset_of_flow ((h.ready.linked (mem_callees.1 hf)).returned hd hv hr)
  case unrecognised =>
    intro i f r hf hd hlib hr
    exact (h.ready.linked (mem_callees.1 hf)).unrecognised hd hlib hr
  case start =>
    intro i v o f hi hv ho hf
    exact mem_spawnees.2 (h.mem_spawnees_of_start hp hi hv ho hf)
  case startArgument =>
    intro i f a q qs hf hd ha hq
    exact h.subset_of_flow (h.ready.started (mem_spawnees.1 hf) hd ha hq)
  case join =>
    intro j i ptr r tid hj hi hptr hr htid halias
    obtain ⟨hjoined, hflow⟩ := h.matched hj hi hptr hr htid
      (mayAlias_iff.2 (hinv.unknown.symm ▸ halias))
    exact ⟨mem_joined.2 hjoined, fun hf hv => h.subset_of_flow (hflow (mem_spawnees.1 hf) hv)⟩

/-- Nothing is recorded that does not follow. -/
theorem Inv.within (h : Inv p variableIndex (A.inter (full p)) s) :
    s.result.assignment.Within p A where
  of hv o ho := by
    have hmem := h.pts (n := _) ho
    exact ((node_value hv).subset hmem).1
  contents ho x hx := by
    have hmem := h.pts (h.mem_contents.1 hx)
    rw [node_object] at hmem
    exact hmem.1
  callees hf := (h.callees (mem_callees.1 hf)).1
  spawnees hf := (h.spawnees (mem_spawnees.1 hf)).1
  joined hi := (h.joined (mem_joined.1 hi)).1

end Solver

open Solver

/-- The result of the analysis meets all constraints. -/
theorem analyze_closed {p : Program} (hp : p.Finished) {variableIndex : Bool} {t : PointsTo}
    (h : analyze p variableIndex = .ok t) : t.assignment.Closed p variableIndex := by
  obtain ⟨s, hs, rfl⟩ := exists_of_analyze h
  have hwf := hp.wellFormed
  have hfull : (full p).Bounded p :=
    ⟨fun _ => subset_rfl, fun _ => subset_rfl, fun _ => subset_rfl, fun _ => subset_rfl⟩
  exact (solved_of_analyze hwf (closed_full hwf) hfull hs).closed hwf

/-- The result of the analysis has no more than any assignment that meets all constraints. -/
theorem analyze_within {p : Program} (hp : p.Finished) {variableIndex : Bool} {t : PointsTo}
    (h : analyze p variableIndex = .ok t) {A : Assignment} (hA : A.Closed p variableIndex) :
    t.assignment.Within p A := by
  obtain ⟨s, hs, rfl⟩ := exists_of_analyze h
  have hwf := hp.wellFormed
  have hsolved := solved_of_analyze hwf (hA.inter (closed_full hwf)) (bounded_inter_full p A) hs
  exact hsolved.ready.inv.within

/-- Whenever the analysis returns, its points-to sets with the callees, routines and joins they
resolve are the least assignment that meets all constraints of the program. -/
theorem analyze_least {p : Program} (hp : p.Finished) {variableIndex : Bool} {t : PointsTo}
    (h : analyze p variableIndex = .ok t) :
    t.assignment.Closed p variableIndex ∧
      ∀ A : Assignment, A.Closed p variableIndex → t.assignment.Within p A :=
  ⟨analyze_closed hp h, fun _ => analyze_within hp h⟩

/-- A thread stores through its argument and returns it; the thread that started it joins it. -/
def forkAndJoin : List Command :=
  [.global "g" 0, .declare "main" 0, .declare "worker" 1, .declare "thread_create" 3,
    .declare "thread_join" 2, .global "t" 0,
    .body 1, .append 1 0 (.store 3 0), .append 1 0 (.ret (some 3)),
    .body 0, .append 0 1 (.alloc false 0), .append 0 1 (.call (.direct 2) [11, 2, 12]),
    .append 0 1 (.load 11), .append 0 1 (.call (.direct 3) [14, 0]), .append 0 1 (.ret none)]

theorem analyze_least_forkAndJoin : ∃ t, (Builder.ofScript forkAndJoin).Finished ∧
    analyze (Builder.ofScript forkAndJoin) true = .ok t ∧
    t.assignment.Closed (Builder.ofScript forkAndJoin) true ∧
    ∀ A : Assignment, A.Closed (Builder.ofScript forkAndJoin) true →
      t.assignment.Within (Builder.ofScript forkAndJoin) A := by
  have hfin : (Builder.ofScript forkAndJoin).Finished :=
    Builder.finished_ofScript (by decide +kernel)
  have hok : (analyze (Builder.ofScript forkAndJoin) true).toBool = true := by decide +kernel
  cases ht : analyze (Builder.ofScript forkAndJoin) true with
  | error e =>
    rw [ht] at hok
    cases hok
  | ok t => exact ⟨t, hfin, rfl, analyze_least hfin ht⟩

end PointsTo

end DataRace
