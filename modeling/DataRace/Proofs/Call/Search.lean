import DataRace.Proofs.Call.Class

/-!
# DataRace.Proofs.Call.Search

What the search for components finds.

While the search goes on, the functions that are entered and not yet left form a
`path`, each entered from the one before.  The stack holds the functions whose
component is not known yet.  Each of them leads to all that were entered after
it and to some function of the path that was entered no later (`Sound`).

* `Sound.enter`, `Sound.leave`, `Sound.emit` — what the steps of the search keep;
* `Follows.step` — what is known after each edge out of the function the search is at;
* `Connected` — what the search from a function comes to, `Sound.connect` that it does;
* `ofGraph_lists`, `exists_of?_ofGraph` — the whole search.
-/

namespace DataRace

open Std Relation

namespace ComponentSearch

variable {p : Program} {g : CallGraph} {s t : ComponentSearch} {path top rest : List FuncId}
  {f v w : FuncId} {k n : Nat}

/-! ## steps of the search -/

def Unvisited (s : ComponentSearch) (f : FuncId) : Prop := s.states[f]? = some .unvisited

@[simp] theorem getElem?_states_enter :
    (s.enter v).states[f]? = if v = f then some .onStack else s.states[f]? := by
  simp [enter, TreeMap.getElem?_insert, LawfulEqCmp.compare_eq_iff_eq]

@[simp] theorem indexOf_enter :
    (s.enter v).indexOf f = if v = f then s.index else s.indexOf f := IdMap.getD_insert

@[simp] theorem lowlinkOf_enter :
    (s.enter v).lowlinkOf f = if v = f then s.index else s.lowlinkOf f := IdMap.getD_insert

@[simp] theorem stack_enter : (s.enter v).stack = v :: s.stack := rfl

@[simp] theorem found_enter : (s.enter v).found = s.found := rfl

@[simp] theorem lowlinkOf_lower :
    (s.lower v n).lowlinkOf f = if v = f then min (s.lowlinkOf v) n else s.lowlinkOf f :=
  IdMap.getD_insert

/-- Popping down to `v` lists what stands above it, and `v`. -/
theorem popTo_append (hv : v ∉ top) :
    popTo v k (top ++ v :: rest) s = (top ++ [v], (top ++ [v]).foldl (pop · k) s) := by
  induction top generalizing s with
  | nil => rw [List.nil_append, popTo, if_pos rfl]; rfl
  | cons w ws ih =>
    obtain ⟨hne, hws⟩ := List.ne_and_not_mem_of_not_mem_cons hv
    rw [List.cons_append, popTo, if_neg (Ne.symm hne), ih hws]
    rfl

theorem foldl_pop (ws : List FuncId) : ws.foldl (pop · k) s =
    { s with
      states := ws.foldl (·.insert · .finished) s.states
      stack := s.stack.drop ws.length
      found := { s.found with index := ws.foldl (·.insert · k) s.found.index } } := by
  induction ws generalizing s with
  | nil => rfl
  | cons w ws ih =>
    rw [List.foldl_cons, ih, List.length_cons, ← List.drop_tail]
    rfl

/-- The component that is emitted when `ws` are popped down to `v`. -/
def componentOf (v : FuncId) (ws : List FuncId) (selfLoop : Bool) : Component :=
  let members := (TreeSet.ofList ws : IdSet).toList
  { rep := members.headD v
    members
    recursive := members.length > 1 || selfLoop }

theorem mem_componentOf {ws : List FuncId} {selfLoop : Bool} :
    f ∈ (componentOf v ws selfLoop).members ↔ f ∈ ws := by
  simp [componentOf, TreeSet.mem_ofList]

theorem emit_eq {selfLoop : Bool} (hstack : s.stack = top ++ v :: rest) (hv : v ∉ top) :
    s.emit v selfLoop =
      { s with
        states := (top ++ [v]).foldl (·.insert · .finished) s.states
        stack := rest
        found :=
          { list := s.found.list.push (componentOf v (top ++ [v]) selfLoop)
            index := (top ++ [v]).foldl (·.insert · s.found.list.size) s.found.index } } := by
  have hdrop : s.stack.drop (top ++ [v]).length = rest := by
    rw [hstack, List.append_cons top v rest, List.drop_left]
  rw [emit, hstack, popTo_append hv]
  simp only [foldl_pop, hdrop]
  rfl

/-- Every member of a list gets the same value. -/
theorem getElem?_foldl_insert_const {α : Type} {a : α} {m : IdMap α} {ws : List FuncId} :
    (ws.foldl (·.insert · a) m)[f]? = if f ∈ ws then some a else m[f]? := by
  rw [IdMap.getElem?_foldl_insert (f := fun _ => some a) (fun _ _ _ ha => by cases ha; rfl)
    (fun _ _ ha => by cases ha)]
  split
  · rfl
  · exact Option.none_or

/-! ## what is known while the search goes on -/

/-- The functions of `path` are entered and not yet left. -/
structure Sound (p : Program) (g : CallGraph) (path : List FuncId) (s : ComponentSearch) :
    Prop where
  defined_iff : ∀ {f}, (∃ state, s.states[f]? = some state) ↔ (p.func f).isDeclaration = false
  onStack_iff : ∀ {f}, s.states[f]? = some .onStack ↔ f ∈ s.stack
  finished_iff : ∀ {f}, s.states[f]? = some .finished ↔ ∃ k, s.found.of? f = some k
  numbered : ∀ f ∈ s.stack, f ∈ s.indices ∧ f ∈ s.lowlinks
  lt_index : ∀ f ∈ s.stack, s.indexOf f < s.index
  descending : s.stack.Pairwise fun a b => s.indexOf b < s.indexOf a
  path_subset : ∀ f ∈ path, f ∈ s.stack
  /-- A function on the stack leads to those entered after it. -/
  leads : ∀ a ∈ s.stack, ∀ b ∈ s.stack, s.indexOf a ≤ s.indexOf b → g.Reaches a b
  /-- A function on the stack leads back to one that is not left. -/
  leads_back : ∀ b ∈ s.stack, ∃ a ∈ path, s.indexOf a ≤ s.indexOf b ∧ g.Reaches b a
  /-- What a function that is left enters is visited. -/
  followed : ∀ f ∈ s.stack, f ∉ path → ∀ e ∈ g.edges, e.caller = f → ¬s.Unvisited e.callee
  found : s.found.Lists p g

namespace Sound

theorem defined (h : Sound p g path s) (hf : f ∈ s.stack) : (p.func f).isDeclaration = false :=
  h.defined_iff.1 ⟨_, h.onStack_iff.2 hf⟩

theorem not_unvisited (h : Sound p g path s) (hf : f ∈ s.stack) : ¬s.Unvisited f := by
  rw [Unvisited, h.onStack_iff.2 hf]
  simp

theorem not_mem_stack (h : Sound p g path s) (hf : s.Unvisited f) : f ∉ s.stack :=
  fun hmem => h.not_unvisited hmem hf

/-- A defined function that is visited is on the stack or has its component. -/
theorem mem_stack_or_exists_of? (h : Sound p g path s) (hdef : (p.func f).isDeclaration = false)
    (hf : ¬s.Unvisited f) : f ∈ s.stack ∨ ∃ k, s.found.of? f = some k := by
  obtain ⟨state, hstate⟩ := h.defined_iff.2 hdef
  cases state with
  | unvisited => exact absurd hstate hf
  | onStack => exact .inl (h.onStack_iff.1 hstate)
  | finished => exact .inr (h.finished_iff.1 hstate)

theorem not_mem_stack_of_of? (h : Sound p g path s) (hk : s.found.of? f = some k) :
    f ∉ s.stack := by
  intro hf
  have hstate := h.finished_iff.2 ⟨k, hk⟩
  rw [h.onStack_iff.2 hf] at hstate
  cases hstate

theorem lower (h : Sound p g path s) (v : FuncId) (n : Nat) : Sound p g path (s.lower v n) where
  defined_iff := h.defined_iff
  onStack_iff := h.onStack_iff
  finished_iff := h.finished_iff
  numbered f hf := by
    obtain ⟨hindex, hlow⟩ := h.numbered f hf
    exact ⟨hindex, TreeMap.mem_insert.2 (.inr hlow)⟩
  lt_index := h.lt_index
  descending := h.descending
  path_subset := h.path_subset
  leads := h.leads
  leads_back := h.leads_back
  followed := h.followed
  found := h.found

/-- A function that every function of the path leads to is entered. -/
theorem enter (h : Sound p g path s) (hv : s.Unvisited v) (hpath : ∀ a ∈ path, g.Reaches a v) :
    Sound p g (v :: path) (s.enter v) := by
  have hnew : ∀ f ∈ s.stack, v ≠ f := fun f hf heq => h.not_mem_stack hv (heq ▸ hf)
  have hindex {f : FuncId} (hf : f ∈ s.stack) : (s.enter v).indexOf f = s.indexOf f := by
    rw [indexOf_enter, if_neg (hnew f hf)]
  have hself : (s.enter v).indexOf v = s.index := by rw [indexOf_enter, if_pos rfl]
  constructor
  case defined_iff =>
    intro f
    rw [getElem?_states_enter, ← h.defined_iff]
    split
    · next heq =>
      subst heq
      exact ⟨fun _ => ⟨_, hv⟩, fun _ => ⟨_, rfl⟩⟩
    · rfl
  case onStack_iff =>
    intro f
    rw [getElem?_states_enter]
    split
    · next heq => simp [heq]
    · next hne => simp [h.onStack_iff, Ne.symm hne]
  case finished_iff =>
    intro f
    rw [getElem?_states_enter]
    split
    · next heq =>
      subst heq
      have hnot : ¬∃ k, s.found.of? v = some k := by
        rw [← h.finished_iff, hv]
        simp
      simpa using hnot
    · exact h.finished_iff
  case numbered =>
    intro f hf
    simp only [ComponentSearch.enter, TreeMap.mem_insert, LawfulEqCmp.compare_eq_iff_eq]
    rcases List.mem_cons.1 hf with rfl | hf
    · exact ⟨.inl rfl, .inl rfl⟩
    · exact (h.numbered f hf).imp .inr .inr
  case lt_index =>
    intro f hf
    rcases List.mem_cons.1 hf with rfl | hf
    · rw [hself]
      exact Nat.lt_succ_self _
    · rw [hindex hf]
      exact Nat.lt_succ_of_lt (h.lt_index f hf)
  case descending =>
    refine List.pairwise_cons.2 ⟨fun b hb => ?_, h.descending.imp_of_mem fun ha hb hlt => ?_⟩
    · rw [hself, hindex hb]
      exact h.lt_index b hb
    · rwa [hindex ha, hindex hb]
  case path_subset =>
    intro f hf
    rcases List.mem_cons.1 hf with rfl | hf
    · exact List.mem_cons_self
    · exact List.mem_cons_of_mem v (h.path_subset f hf)
  case leads =>
    intro a ha b hb hle
    rw [stack_enter, List.mem_cons] at ha hb
    obtain rfl | hb := hb
    · obtain rfl | ha := ha
      · exact .refl
      · obtain ⟨c, hc, -, hback⟩ := h.leads_back a ha
        exact hback.trans (hpath c hc)
    · obtain rfl | ha := ha
      · rw [hself, hindex hb] at hle
        exact absurd (h.lt_index b hb) (Nat.not_lt.2 hle)
      · rw [hindex ha, hindex hb] at hle
        exact h.leads a ha b hb hle
  case leads_back =>
    intro b hb
    rcases List.mem_cons.1 hb with rfl | hb
    · exact ⟨b, List.mem_cons_self, Nat.le_refl _, .refl⟩
    · obtain ⟨a, ha, hle, hback⟩ := h.leads_back b hb
      refine ⟨a, List.mem_cons_of_mem v ha, ?_, hback⟩
      rwa [hindex (h.path_subset a ha), hindex hb]
  case followed =>
    intro f hf hnot e he hcaller
    obtain ⟨hne, hnot⟩ := List.ne_and_not_mem_of_not_mem_cons hnot
    have hold := h.followed f ((List.mem_cons.1 hf).resolve_left hne) hnot e he hcaller
    rw [Unvisited, getElem?_states_enter]
    split
    · simp
    · exact hold
  case found => exact h.found

/-- A function that leads back to one entered earlier is left. -/
theorem leave (h : Sound p g (v :: path) s) (hfollowed : ∀ e ∈ g.edges, e.caller = v →
    ¬s.Unvisited e.callee) (hw : w ∈ s.stack) (hlt : s.indexOf w < s.indexOf v)
    (hreach : g.Reaches v w) : Sound p g path s where
  defined_iff := h.defined_iff
  onStack_iff := h.onStack_iff
  finished_iff := h.finished_iff
  numbered := h.numbered
  lt_index := h.lt_index
  descending := h.descending
  path_subset f hf := h.path_subset f (List.mem_cons_of_mem v hf)
  leads := h.leads
  leads_back b hb := by
    obtain ⟨a, ha, hle, hback⟩ := h.leads_back b hb
    rcases List.mem_cons.1 ha with rfl | ha
    · -- From `v` the way goes on to `w`, and from there to a function that is not left.
      obtain ⟨c, hc, hle', hback'⟩ := h.leads_back w hw
      rcases List.mem_cons.1 hc with rfl | hc
      · exact absurd hlt (Nat.not_lt.2 hle')
      · exact ⟨c, hc, by omega, hback.trans (hreach.trans hback')⟩
    · exact ⟨a, ha, hle, hback⟩
  followed f hf hnot e he hcaller := by
    by_cases heq : f = v
    · exact hfollowed e he (hcaller.trans heq)
    · exact h.followed f hf (List.not_mem_cons_of_ne_of_not_mem heq hnot) e he hcaller
  found := h.found

/-! ## the first function of a component is left -/

/-- The stack stands above `v` in the order in which its functions were entered. -/
structure Splits (s : ComponentSearch) (top : List FuncId) (v : FuncId) (rest : List FuncId) :
    Prop where
  stack : s.stack = (top ++ [v]) ++ rest
  nodup : (top ++ [v]).Nodup
  disjoint : ∀ f ∈ top ++ [v], f ∉ rest
  le_index : ∀ f ∈ top ++ [v], s.indexOf v ≤ s.indexOf f
  index_lt : ∀ f ∈ rest, s.indexOf f < s.indexOf v

namespace Splits

theorem self_mem : v ∈ top ++ [v] := List.mem_append_right top (List.mem_singleton_self v)

theorem not_mem (h : Splits s top v rest) : v ∉ top := fun hv =>
  (List.nodup_append.1 h.nodup).2.2 v hv v (List.mem_singleton_self v) rfl

theorem mem_stack (h : Splits s top v rest) (hf : f ∈ top ++ [v]) : f ∈ s.stack :=
  h.stack ▸ List.mem_append_left rest hf

theorem mem_stack_of_rest (h : Splits s top v rest) (hf : f ∈ rest) : f ∈ s.stack :=
  h.stack ▸ List.mem_append_right _ hf

end Splits

theorem splits (h : Sound p g path s) (hstack : s.stack = top ++ v :: rest) :
    Splits s top v rest := by
  have hdesc := h.descending
  have heq : s.stack = (top ++ [v]) ++ rest := by rw [hstack, List.append_cons top v rest]
  have hnodup : s.stack.Nodup := hdesc.imp fun hlt hsame => by
    rw [hsame] at hlt
    exact Nat.lt_irrefl _ hlt
  rw [hstack, List.pairwise_append, List.pairwise_cons] at hdesc
  rw [heq, List.nodup_append] at hnodup
  refine ⟨heq, hnodup.1, fun f hf hrest => hnodup.2.2 f hf f hrest rfl, fun f hf => ?_,
    hdesc.2.1.1⟩
  rcases List.mem_append.1 hf with hf | hf
  · exact (hdesc.2.2 f hf v List.mem_cons_self).le
  · rw [List.mem_singleton.1 hf]

variable {selfLoop : Bool}

/-- The functions on the stack down to `v` reach each other. -/
theorem reaches_of_mem_top (h : Sound p g (v :: path) s) (hsplit : Splits s top v rest)
    (hpath : ∀ f ∈ path, f ∈ rest) (hf : f ∈ top ++ [v]) : g.Reaches v f ∧ g.Reaches f v := by
  have hv : v ∈ s.stack := hsplit.mem_stack Splits.self_mem
  refine ⟨h.leads v hv f (hsplit.mem_stack hf) (hsplit.le_index f hf), ?_⟩
  obtain ⟨c, hc, -, hback⟩ := h.leads_back f (hsplit.mem_stack hf)
  rcases List.mem_cons.1 hc with rfl | hc
  · exact hback
  · have hrest := hpath c hc
    have hstack : c ∈ s.stack := hsplit.mem_stack_of_rest hrest
    exact hback.trans (h.leads c hstack v hv (hsplit.index_lt c hrest).le)

/-- What no edge leads out of to the rest of the stack only enters itself and what has its
component. -/
theorem mem_top_or_exists_of? (h : Sound p g path s) (hg : Components.Defined p g)
    (hsplit : Splits s top v rest)
    (hclosed : ∀ e ∈ g.edges, e.caller ∈ top ++ [v] → ¬s.Unvisited e.callee ∧ e.callee ∉ rest)
    {e : CallEdge} (he : e ∈ g.edges) (hcaller : e.caller ∈ top ++ [v]) :
    e.callee ∈ top ++ [v] ∨ ∃ k, s.found.of? e.callee = some k := by
  obtain ⟨hvisited, hrest⟩ := hclosed e he hcaller
  refine (h.mem_stack_or_exists_of? (hg e he) hvisited).imp_left fun hmem => ?_
  rw [hsplit.stack, List.mem_append] at hmem
  exact hmem.resolve_right hrest

/-- The functions on the stack down to `v` are a class. -/
theorem class_componentOf (h : Sound p g (v :: path) s) (hg : Components.Defined p g)
    (hsplit : Splits s top v rest) (hpath : ∀ f ∈ path, f ∈ rest)
    (hclosed : ∀ e ∈ g.edges, e.caller ∈ top ++ [v] → ¬s.Unvisited e.callee ∧ e.callee ∉ rest)
    (hloop : selfLoop = true ↔ ∃ e ∈ g.edges, e.caller = v ∧ e.callee = v) :
    (componentOf v (top ++ [v]) selfLoop).Class p g := by
  constructor
  case ascending => exact TreeSet.ordered_toList.imp Nat.compare_eq_lt.1
  case smallest =>
    have hin : v ∈ (componentOf v (top ++ [v]) selfLoop).members :=
      mem_componentOf.2 Splits.self_mem
    have hne := List.ne_nil_of_mem hin
    have hrep : (componentOf v (top ++ [v]) selfLoop).rep =
        (componentOf v (top ++ [v]) selfLoop).members.headD v := rfl
    rw [hrep, List.headD_eq_head?_getD, List.head?_eq_some_head hne, Option.getD_some]
  case mem_iff =>
    intro a b ha
    rw [mem_componentOf] at ha ⊢
    obtain ⟨hva, hav⟩ := h.reaches_of_mem_top hsplit hpath ha
    constructor
    · intro hb
      obtain ⟨hvb, hbv⟩ := h.reaches_of_mem_top hsplit hpath hb
      exact ⟨h.defined (hsplit.mem_stack hb), hav.trans hvb, hbv.trans hva⟩
    · rintro ⟨-, hab, hba⟩
      -- What `a` leads to is in the class or has its component, and `b` leads to `a` on the stack.
      have hreach : b ∈ top ++ [v] ∨ ∃ k, s.found.of? b = some k := by
        clear hba
        induction hab with
        | refl => exact .inl ha
        | tail _ hedge ih =>
          obtain ⟨e, he, rfl, rfl⟩ := hedge
          rcases ih with hin | ⟨k, hk⟩
          · exact h.mem_top_or_exists_of? hg hsplit hclosed he hin
          · obtain ⟨l, -, hl⟩ := h.found.ordered he hk
            exact .inr ⟨l, hl⟩
      refine hreach.resolve_right fun ⟨k, hk⟩ => ?_
      obtain ⟨l, -, hl⟩ := h.found.exists_le_of_reaches hba hk
      exact h.not_mem_stack_of_of? hl (hsplit.mem_stack ha)
  case recursive_iff =>
    have hrec : (componentOf v (top ++ [v]) selfLoop).recursive =
        (decide ((componentOf v (top ++ [v]) selfLoop).members.length > 1) || selfLoop) := rfl
    rw [hrec, Bool.or_eq_true, decide_eq_true_eq, hloop]
    refine or_congr_right' fun hlen => ?_
    -- With one member the edges in question are those of `v`.
    constructor
    · rintro ⟨e, he, rfl, hcallee⟩
      exact ⟨e, he, mem_componentOf.2 Splits.self_mem, hcallee⟩
    · rintro ⟨e, he, hin, hcallee⟩
      have hcaller := eq_of_not_one_lt_length hlen hin (mem_componentOf.2 Splits.self_mem)
      exact ⟨e, he, hcaller, hcallee.trans hcaller⟩

/-- A function that leads back to none entered earlier is left with its component. -/
theorem emit (h : Sound p g (v :: path) s) (hg : Components.Defined p g)
    (hstack : s.stack = top ++ v :: rest) (hpath : ∀ f ∈ path, f ∈ rest)
    (hclosed : ∀ e ∈ g.edges, e.caller ∈ top ++ [v] → ¬s.Unvisited e.callee ∧ e.callee ∉ rest)
    (hloop : selfLoop = true ↔ ∃ e ∈ g.edges, e.caller = v ∧ e.callee = v) :
    Sound p g path (s.emit v selfLoop) := by
  have hsplit := h.splits hstack
  have hclass := h.class_componentOf hg hsplit hpath hclosed hloop
  have hrest {f : FuncId} (hf : f ∈ rest) : f ∈ s.stack := hsplit.mem_stack_of_rest hf
  have hiff {f : FuncId} (hf : f ∉ top ++ [v]) : f ∈ s.stack ↔ f ∈ rest := by
    rw [hsplit.stack, List.mem_append, or_iff_right hf]
  rw [emit_eq hstack hsplit.not_mem]
  constructor
  case defined_iff =>
    intro f
    rw [getElem?_foldl_insert_const]
    split
    · next hf =>
      simp only [Option.some.injEq, exists_eq', true_iff]
      exact h.defined (hsplit.mem_stack hf)
    · exact h.defined_iff
  case onStack_iff =>
    intro f
    rw [getElem?_foldl_insert_const]
    split
    · next hf => simpa using hsplit.disjoint f hf
    · next hf => exact h.onStack_iff.trans (hiff hf)
  case finished_iff =>
    intro f
    rw [getElem?_foldl_insert_const, Components.of?, getElem?_foldl_insert_const]
    split
    · simp
    · exact h.finished_iff
  case numbered => exact fun f hf => h.numbered f (hrest hf)
  case lt_index => exact fun f hf => h.lt_index f (hrest hf)
  case descending => exact (List.pairwise_append.1 (hsplit.stack ▸ h.descending)).2.1
  case path_subset => exact hpath
  case leads => exact fun a ha b hb => h.leads a (hrest ha) b (hrest hb)
  case leads_back =>
    intro b hb
    obtain ⟨a, ha, hle, hback⟩ := h.leads_back b (hrest hb)
    rcases List.mem_cons.1 ha with rfl | ha
    · exact absurd (hsplit.index_lt b hb) (Nat.not_lt.2 hle)
    · exact ⟨a, ha, hle, hback⟩
  case followed =>
    intro f hf hnot e he hcaller
    have hne : f ≠ v := fun heq => hsplit.disjoint f (heq ▸ Splits.self_mem) hf
    have hold := h.followed f (hrest hf) (List.not_mem_cons_of_ne_of_not_mem hne hnot) e he hcaller
    rw [Unvisited, getElem?_foldl_insert_const]
    split
    · simp
    · exact hold
  case found =>
    refine h.found.push hclass (fun f => ?_) (fun f hf => ?_) fun e he hcaller => ?_
    · simp only [mem_componentOf]
      exact getElem?_foldl_insert_const
    · refine Option.eq_none_iff_forall_ne_some.2 fun k hk => ?_
      exact h.not_mem_stack_of_of? hk (hsplit.mem_stack (mem_componentOf.1 hf))
    · rw [mem_componentOf] at hcaller ⊢
      exact h.mem_top_or_exists_of? hg hsplit hclosed he hcaller

end Sound

/-! ## the edges out of a function -/

/-- The functions that the search has still to enter. -/
def unvisited (fs : List FuncId) (s : ComponentSearch) : Nat :=
  fs.countP fun f => s.states[f]? = some .unvisited

theorem unvisited_mono {fs : List FuncId} (h : ∀ f, ¬s.Unvisited f → ¬t.Unvisited f) :
    unvisited fs t ≤ unvisited fs s := by
  refine List.countP_mono_left fun f _ hf => ?_
  rw [decide_eq_true_eq] at hf ⊢
  exact Decidable.not_not.1 (mt (h f) (not_not_intro hf))

theorem unvisited_lt {fs : List FuncId} (h : ∀ f, ¬s.Unvisited f → ¬t.Unvisited f) (hv : v ∈ fs)
    (hs : s.Unvisited v) (ht : ¬t.Unvisited v) : unvisited fs t < unvisited fs s := by
  obtain ⟨before, after, rfl⟩ := List.append_of_mem hv
  have hbefore : unvisited before t ≤ unvisited before s := unvisited_mono h
  have hafter : unvisited after t ≤ unvisited after s := unvisited_mono h
  have hin : decide (s.states[v]? = some .unvisited) = true := decide_eq_true hs
  have hout : decide (t.states[v]? = some .unvisited) = false := decide_eq_false ht
  simp only [unvisited, List.countP_append, List.countP_cons, hin, hout] at hbefore hafter ⊢
  simp only [Bool.false_eq_true, if_false, if_true]
  omega

/-- No edge from `top` to `below` leads to a smaller number than the low-link of `v`. -/
def Bounds (g : CallGraph) (s : ComponentSearch) (v : FuncId) (top below : List FuncId) : Prop :=
  ∀ e ∈ g.edges, e.caller ∈ top → e.callee ∈ below → s.lowlinkOf v ≤ s.indexOf e.callee

/-- The search `s` entered `v` and has come to `t`. -/
structure Entered (g : CallGraph) (s : ComponentSearch) (v : FuncId) (t : ComponentSearch) :
    Prop where
  visited : ∀ f, ¬s.Unvisited f → ¬t.Unvisited f
  indexOf_eq : ∀ f, ¬s.Unvisited f → t.indexOf f = s.indexOf f
  lowlinkOf_eq : ∀ f, ¬s.Unvisited f → t.lowlinkOf f = s.lowlinkOf f
  number : t.indexOf v = s.index
  low_le : t.lowlinkOf v ≤ t.indexOf v
  /-- A low-link is the number of a function on the stack that `v` leads to. -/
  low_reaches : t.lowlinkOf v < t.indexOf v →
    ∃ w ∈ t.stack, t.indexOf w = t.lowlinkOf v ∧ g.Reaches v w

/-- The search is at `v` and has followed the edges `es`. -/
structure Follows (p : Program) (g : CallGraph) (path : List FuncId) (s : ComponentSearch)
    (v : FuncId) (es : List CallEdge) (t : ComponentSearch) : Prop extends Entered g s v t where
  sound : Sound p g (v :: path) t
  stack : ∃ top, t.stack = top ++ v :: s.stack ∧ Bounds g t v top s.stack
  followed : ∀ e ∈ es, ¬t.Unvisited e.callee ∧
    (e.callee ∈ s.stack → t.lowlinkOf v ≤ t.indexOf e.callee)

/-- The search from `v` is over. -/
structure Connected (p : Program) (g : CallGraph) (path : List FuncId) (s : ComponentSearch)
    (v : FuncId) (t : ComponentSearch) : Prop extends Entered g s v t where
  sound : Sound p g path t
  visited_self : ¬t.Unvisited v
  stack : ∃ top, t.stack = top ++ s.stack ∧ Bounds g t v top s.stack

theorem Follows.start (h : Sound p g path s) (hv : s.Unvisited v)
    (hpath : ∀ a ∈ path, g.Reaches a v) : Follows p g path s v [] (s.enter v) := by
  have hne {f : FuncId} (hf : ¬s.Unvisited f) : v ≠ f := fun heq => hf (heq ▸ hv)
  exact {
    sound := h.enter hv hpath
    visited := fun f hf => by rwa [Unvisited, getElem?_states_enter, if_neg (hne hf)]
    indexOf_eq := fun f hf => by rw [indexOf_enter, if_neg (hne hf)]
    lowlinkOf_eq := fun f hf => by rw [lowlinkOf_enter, if_neg (hne hf)]
    number := by rw [indexOf_enter, if_pos rfl]
    low_le := by simp
    low_reaches := by simp
    stack := ⟨[], rfl, fun _ _ h => absurd h List.not_mem_nil⟩
    followed := fun _ h => absurd h List.not_mem_nil }

variable {r : ComponentSearch} {es : List CallEdge} {e : CallEdge} {new : List FuncId}

theorem Follows.mem_stack (h : Follows p g path s v es r) : v ∈ r.stack :=
  h.sound.path_subset v List.mem_cons_self

theorem Follows.mem_stack_of_mem (h : Follows p g path s v es r) (hf : f ∈ s.stack) :
    f ∈ r.stack := by
  obtain ⟨top, hstack, -⟩ := h.stack
  rw [hstack]
  exact List.mem_append_right top (List.mem_cons_of_mem v hf)

/-- After one more edge out of `v` the low-link of `v` is what it was, or a number that the edge
leads to. -/
theorem Follows.step (h : Follows p g path s v es r) (hs : Sound p g path s) (hv : s.Unvisited v)
    (hsound : Sound p g (v :: path) t)
    (hvisited : ∀ f, ¬r.Unvisited f → ¬t.Unvisited f)
    (hindex : ∀ f, ¬r.Unvisited f → t.indexOf f = r.indexOf f)
    (hlow : ∀ f, ¬r.Unvisited f → f ≠ v → t.lowlinkOf f = r.lowlinkOf f)
    (hstack : t.stack = new ++ r.stack) (hle : t.lowlinkOf v ≤ r.lowlinkOf v)
    (hbounds : Bounds g t v new r.stack)
    (hcallee : ¬t.Unvisited e.callee ∧
      (e.callee ∈ r.stack → t.lowlinkOf v ≤ t.indexOf e.callee))
    (hreach : t.lowlinkOf v = r.lowlinkOf v ∨
      ∃ w ∈ t.stack, t.indexOf w = t.lowlinkOf v ∧ g.Reaches v w) :
    Follows p g path s v (es ++ [e]) t := by
  have hself := h.sound.not_unvisited h.mem_stack
  have hnumber : t.indexOf v = r.indexOf v := hindex v hself
  have hmem {f : FuncId} (hf : f ∈ r.stack) : f ∈ t.stack :=
    hstack ▸ List.mem_append_right new hf
  have hbelow {f : FuncId} (hf : f ∈ s.stack) : t.indexOf f = r.indexOf f :=
    hindex f (h.visited f (hs.not_unvisited hf))
  refine {
    sound := hsound
    visited := fun f hf => hvisited f (h.visited f hf)
    indexOf_eq := fun f hf => (hindex f (h.visited f hf)).trans (h.indexOf_eq f hf)
    lowlinkOf_eq := fun f hf => ?_
    number := hnumber.trans h.number
    low_le := hnumber ▸ hle.trans h.low_le
    low_reaches := fun hlt => ?_
    stack := ?_
    followed := fun d hd => ?_ }
  · exact (hlow f (h.visited f hf) fun heq => hf (heq ▸ hv)).trans (h.lowlinkOf_eq f hf)
  · rcases hreach with heq | hreach
    · obtain ⟨w, hw, hnum, hto⟩ := h.low_reaches (by rwa [← heq, ← hnumber])
      refine ⟨w, hmem hw, ?_, hto⟩
      rw [hindex w (h.sound.not_unvisited hw), heq, hnum]
    · exact hreach
  · obtain ⟨top, htop, hold⟩ := h.stack
    refine ⟨new ++ top, by rw [hstack, htop, List.append_assoc], fun d hd hcaller hin => ?_⟩
    rcases List.mem_append.1 hcaller with hcaller | hcaller
    · exact hbounds d hd hcaller (h.mem_stack_of_mem hin)
    · exact hbelow hin ▸ hle.trans (hold d hd hcaller hin)
  · rcases List.mem_append.1 hd with hd | hd
    · obtain ⟨hpast, hbound⟩ := h.followed d hd
      exact ⟨hvisited _ hpast, fun hin => hbelow hin ▸ hle.trans (hbound hin)⟩
    · rw [List.mem_singleton.1 hd]
      exact hcallee.imp_right fun hbound hin => hbound (h.mem_stack_of_mem hin)

theorem lowlinkOf_lower_self : (s.lower v n).lowlinkOf v = min (s.lowlinkOf v) n := by
  rw [lowlinkOf_lower, if_pos rfl]

theorem lowlinkOf_lower_of_ne (hne : f ≠ v) : (s.lower v n).lowlinkOf f = s.lowlinkOf f := by
  rw [lowlinkOf_lower, if_neg (Ne.symm hne)]

/-- The edge leads to a function that is not visited yet, and the search from there is over. -/
theorem Follows.unvisited (h : Follows p g path s v es r) (hs : Sound p g path s)
    (hv : s.Unvisited v) (he : e ∈ g.edges) (hcaller : e.caller = v) (hw : r.Unvisited e.callee)
    (ht : Connected p g (v :: path) r e.callee t) :
    Follows p g path s v (es ++ [e]) (t.lower v (t.lowlinkOf e.callee)) := by
  obtain ⟨new, hstack, hbounds⟩ := ht.stack
  have hself := ht.lowlinkOf_eq v (h.sound.not_unvisited h.mem_stack)
  have hreach : g.Reaches v e.callee := hcaller ▸ .of_edge he
  refine h.step hs hv (ht.sound.lower v _) ht.visited ht.indexOf_eq (fun f hf hne => ?_) hstack ?_
    (fun d hd hd_caller hin => ?_) ⟨ht.visited_self, fun hin => ?_⟩ ?_
  · rw [lowlinkOf_lower_of_ne hne, ht.lowlinkOf_eq f hf]
  · rw [lowlinkOf_lower_self, hself]
    exact Nat.min_le_left _ _
  · rw [lowlinkOf_lower_self]
    exact (Nat.min_le_right _ _).trans (hbounds d hd hd_caller hin)
  · exact absurd hw (h.sound.not_unvisited hin)
  · rw [lowlinkOf_lower_self, hself]
    rcases Nat.lt_or_ge (t.lowlinkOf e.callee) (r.lowlinkOf v) with hlt | hge
    · -- The number of the callee is larger than that of `v`, so its low-link is a smaller one.
      have hv_lt := h.sound.lt_index v h.mem_stack
      have hlow := h.low_le
      have hnumber := ht.number
      obtain ⟨w, hw, hnum, hto⟩ := ht.low_reaches (by omega)
      exact .inr ⟨w, hw, by rw [Nat.min_eq_right hlt.le]; exact hnum, hreach.trans hto⟩
    · exact .inl (Nat.min_eq_left hge)

/-- The edge leads to a function on the stack. -/
theorem Follows.onStack (h : Follows p g path s v es r) (hs : Sound p g path s)
    (hv : s.Unvisited v) (he : e ∈ g.edges) (hcaller : e.caller = v) (hw : e.callee ∈ r.stack) :
    Follows p g path s v (es ++ [e]) (r.lower v (r.indexOf e.callee)) := by
  refine h.step hs hv (h.sound.lower v _) (fun _ hf => hf) (fun _ _ => rfl)
    (fun f _ hne => lowlinkOf_lower_of_ne hne) (List.nil_append _).symm ?_
    (fun _ _ hd_caller => absurd hd_caller List.not_mem_nil)
    ⟨h.sound.not_unvisited hw, fun _ => ?_⟩ ?_
  · rw [lowlinkOf_lower_self]
    exact Nat.min_le_left _ _
  · rw [lowlinkOf_lower_self]
    exact Nat.min_le_right _ _
  · rw [lowlinkOf_lower_self]
    rcases Nat.le_total (r.lowlinkOf v) (r.indexOf e.callee) with hle | hle
    · exact .inl (Nat.min_eq_left hle)
    · exact .inr ⟨e.callee, hw, (Nat.min_eq_right hle).symm, hcaller ▸ .of_edge he⟩

/-- The edge leads to a function that has its component. -/
theorem Follows.finished (h : Follows p g path s v es r) (hs : Sound p g path s)
    (hv : s.Unvisited v) (hw : ¬r.Unvisited e.callee) (hnot : e.callee ∉ r.stack) :
    Follows p g path s v (es ++ [e]) r :=
  h.step hs hv h.sound (fun _ hf => hf) (fun _ _ => rfl) (fun _ _ _ => rfl)
    (List.nil_append _).symm (Nat.le_refl _)
    (fun _ _ hd_caller => absurd hd_caller List.not_mem_nil) ⟨hw, fun hin => absurd hin hnot⟩
    (.inl rfl)

theorem Follows.follow {search : ComponentSearch → FuncId → ComponentSearch} {selfLoop : Bool}
    (h : Follows p g path s v es r) (hs : Sound p g path s) (hv : s.Unvisited v) (he : e ∈ g.edges)
    (hcaller : e.caller = v)
    (hsearch : r.Unvisited e.callee →
      Connected p g (v :: path) r e.callee (search r e.callee)) :
    Follows p g path s v (es ++ [e]) (follow search v (r, selfLoop) e).1 ∧
      (ComponentSearch.follow search v (r, selfLoop) e).2 = (selfLoop || e.callee = v) := by
  rw [ComponentSearch.follow]
  split
  · next hw => exact ⟨h.unvisited hs hv he hcaller hw (hsearch hw), rfl⟩
  · next hw => exact ⟨h.onStack hs hv he hcaller (h.sound.onStack_iff.1 hw), rfl⟩
  · next hnot hnot' =>
    exact ⟨h.finished hs hv hnot fun hin => hnot' (h.sound.onStack_iff.2 hin), rfl⟩

/-- All edges out of a function are followed. -/
theorem Follows.edges (search : ComponentSearch → FuncId → ComponentSearch) (hs : Sound p g path s)
    (hv : s.Unvisited v) (hpath : ∀ a ∈ path, g.Reaches a v)
    (hsearch : ∀ {es r e}, Follows p g path s v es r → e ∈ g.edges → e.caller = v →
      r.Unvisited e.callee → Connected p g (v :: path) r e.callee (search r e.callee)) :
    Follows p g path s v (g.edgesFrom v)
        ((g.edgesFrom v).foldl (ComponentSearch.follow search v) (s.enter v, false)).1 ∧
      (((g.edgesFrom v).foldl (ComponentSearch.follow search v) (s.enter v, false)).2 = true ↔
        ∃ e ∈ g.edges, e.caller = v ∧ e.callee = v) := by
  have hfold (es : List CallEdge) (hes : ∀ e ∈ es, e ∈ g.edges ∧ e.caller = v)
      (past : List CallEdge) (r : ComponentSearch × Bool) (h : Follows p g path s v past r.1) :
      Follows p g path s v (past ++ es) (es.foldl (ComponentSearch.follow search v) r).1 ∧
        (es.foldl (ComponentSearch.follow search v) r).2 =
          (r.2 || es.any fun e => e.callee = v) := by
    induction es generalizing past r with
    | nil => simpa using h
    | cons e es ih =>
      obtain ⟨he, hcaller⟩ := hes e List.mem_cons_self
      obtain ⟨hstep, hloop⟩ := h.follow hs hv he hcaller (hsearch h he hcaller)
      obtain ⟨hend, hloops⟩ := ih (fun d hd => hes d (List.mem_cons_of_mem e hd)) _ _ hstep
      rw [List.append_assoc] at hend
      refine ⟨hend, ?_⟩
      rw [List.foldl_cons, hloops, hloop, List.any_cons, Bool.or_assoc]
  have hes : ∀ e ∈ g.edgesFrom v, e ∈ g.edges ∧ e.caller = v := fun e he => by
    simpa [CallGraph.edgesFrom] using he
  obtain ⟨hend, hloops⟩ := hfold (g.edgesFrom v) hes [] (s.enter v, false)
    (.start hs hv hpath)
  refine ⟨hend, ?_⟩
  rw [hloops]
  simp [CallGraph.edgesFrom]

/-! ## the search from a function -/

theorem lowlinks_eq_iff (hindex : v ∈ s.indices) (hlow : v ∈ s.lowlinks) :
    s.lowlinks[v]? = s.indices[v]? ↔ s.lowlinkOf v = s.indexOf v := by
  obtain ⟨a, ha⟩ := IdMap.mem_iff_exists_getElem?.1 hindex
  obtain ⟨b, hb⟩ := IdMap.mem_iff_exists_getElem?.1 hlow
  rw [lowlinkOf, indexOf, IdMap.getD_of_getElem? ha, IdMap.getD_of_getElem? hb, ha, hb,
    Option.some.injEq]

/-- An edge from the functions down to `v` leads to a visited function, and to none that is further
down than the low-link of `v`. -/
theorem Follows.bounds (h : Follows p g path s v (g.edgesFrom v) r)
    (hstack : r.stack = top ++ v :: s.stack) (htop : Bounds g r v top s.stack)
    (hpath : ∀ a ∈ path, a ∈ s.stack) (he : e ∈ g.edges) (hcaller : e.caller ∈ top ++ [v]) :
    ¬r.Unvisited e.callee ∧ (e.callee ∈ s.stack → r.lowlinkOf v ≤ r.indexOf e.callee) := by
  have hsplit := h.sound.splits hstack
  rcases List.mem_append.1 hcaller with hin | hin
  · refine ⟨h.sound.followed e.caller (hsplit.mem_stack hcaller) (fun hmem => ?_) e he rfl,
      htop e he hin⟩
    rcases List.mem_cons.1 hmem with heq | hmem
    · exact hsplit.not_mem (heq ▸ hin)
    · exact hsplit.disjoint _ hcaller (hpath _ hmem)
  · refine h.followed e (List.mem_filter.2 ⟨he, ?_⟩)
    exact decide_eq_true (List.mem_singleton.1 hin)

/-- The search leaves `v` with its component. -/
theorem Follows.emit {selfLoop : Bool} (h : Follows p g path s v (g.edgesFrom v) r)
    (hs : Sound p g path s) (hg : Components.Defined p g)
    (hloop : selfLoop = true ↔ ∃ e ∈ g.edges, e.caller = v ∧ e.callee = v)
    (hlow : r.lowlinkOf v = r.indexOf v) :
    Connected p g path s v (r.emit v selfLoop) := by
  obtain ⟨top, hstack, htop⟩ := h.stack
  have hsplit := h.sound.splits hstack
  have heq : r.emit v selfLoop = _ := emit_eq hstack hsplit.not_mem
  have hsound : Sound p g path (r.emit v selfLoop) := by
    refine h.sound.emit hg hstack hs.path_subset (fun e he hcaller => ?_) hloop
    obtain ⟨hvisited, hbound⟩ := h.bounds hstack htop hs.path_subset he hcaller
    refine ⟨hvisited, fun hin => ?_⟩
    have hlt := hsplit.index_lt _ hin
    have hle := hbound hin
    omega
  have hvisited : ∀ f, ¬r.Unvisited f → ¬(r.emit v selfLoop).Unvisited f := by
    intro f hf
    rw [heq, Unvisited, getElem?_foldl_insert_const]
    split
    · simp
    · exact hf
  have hrest : (r.emit v selfLoop).stack = s.stack := by rw [heq]
  have hindex (f : FuncId) : (r.emit v selfLoop).indexOf f = r.indexOf f := by
    rw [heq]
    rfl
  have hlowlink (f : FuncId) : (r.emit v selfLoop).lowlinkOf f = r.lowlinkOf f := by
    rw [heq]
    rfl
  exact {
    sound := hsound
    visited := fun f hf => hvisited f (h.visited f hf)
    indexOf_eq := fun f hf => (hindex f).trans (h.indexOf_eq f hf)
    lowlinkOf_eq := fun f hf => (hlowlink f).trans (h.lowlinkOf_eq f hf)
    number := (hindex v).trans h.number
    low_le := by rw [hindex, hlowlink, hlow]
    low_reaches := fun hlt => by
      rw [hindex, hlowlink, hlow] at hlt
      exact absurd hlt (Nat.lt_irrefl _)
    visited_self := hvisited v (h.sound.not_unvisited h.mem_stack)
    stack := ⟨[], hrest, fun _ _ hin => absurd hin List.not_mem_nil⟩ }

/-- The search leaves `v` on the stack. -/
theorem Follows.leave (h : Follows p g path s v (g.edgesFrom v) r) (hs : Sound p g path s)
    (hlow : r.lowlinkOf v < r.indexOf v) : Connected p g path s v r := by
  obtain ⟨top, hstack, htop⟩ := h.stack
  have hbounds {e : CallEdge} (he : e ∈ g.edges) (hcaller : e.caller ∈ top ++ [v]) :=
    h.bounds hstack htop hs.path_subset he hcaller
  obtain ⟨w, hw, hnum, hreach⟩ := h.low_reaches hlow
  exact {
    toEntered := h.toEntered
    sound := h.sound.leave
      (fun e he hcaller => (hbounds he (hcaller ▸ Sound.Splits.self_mem)).1) hw (hnum ▸ hlow) hreach
    visited_self := h.sound.not_unvisited h.mem_stack
    stack := ⟨top ++ [v], (h.sound.splits hstack).stack, fun e he hin => (hbounds he hin).2⟩ }

/-- **The search from a function** gives its component to every function entered on the way, or
leaves it on the stack above one that it leads back to. -/
theorem Sound.connect (hg : Components.Defined p g) {depth : Nat} (h : Sound p g path s)
    (hv : s.Unvisited v) (hpath : ∀ a ∈ path, g.Reaches a v)
    (hdepth : unvisited (p.funcIds.filter fun f => !(p.func f).isDeclaration) s ≤ depth) :
    Connected p g path s v (s.connect g depth v) := by
  have hmem {s : ComponentSearch} {path : List FuncId} {v : FuncId} (h : Sound p g path s)
      (hv : s.Unvisited v) : v ∈ p.funcIds.filter fun f => !(p.func f).isDeclaration :=
    Program.mem_defined_iff.2 (h.defined_iff.1 ⟨_, hv⟩)
  induction depth generalizing s v path with
  | zero =>
    have hpos : 0 < unvisited (p.funcIds.filter fun f => !(p.func f).isDeclaration) s :=
      List.countP_pos_iff.2 ⟨v, hmem h hv, decide_eq_true hv⟩
    omega
  | succ depth ih =>
    have hedges := Follows.edges (ComponentSearch.connect g depth) h hv hpath
      fun {es r e} hr he hcaller hw => by
        -- Since `v` is entered, one function less is left to enter.
        have hlt := unvisited_lt hr.visited (hmem h hv) hv (hr.sound.not_unvisited hr.mem_stack)
        have hreach : g.Reaches v e.callee := hcaller ▸ .of_edge he
        refine ih hr.sound hw (fun a ha => ?_) (by omega)
        rcases List.mem_cons.1 ha with rfl | ha
        · exact hreach
        · exact (hpath a ha).trans hreach
    rw [ComponentSearch.connect]
    generalize (g.edgesFrom v).foldl (ComponentSearch.follow (ComponentSearch.connect g depth) v)
      (s.enter v, false) = r at hedges ⊢
    obtain ⟨hfollows, hloop⟩ := hedges
    obtain ⟨hindex, hlow⟩ := hfollows.sound.numbered v hfollows.mem_stack
    change Connected p g path s v (if r.1.lowlinks[v]? = r.1.indices[v]? then _ else _)
    split
    · next heq => exact hfollows.emit h hg hloop ((lowlinks_eq_iff hindex hlow).1 heq)
    · next hne =>
      rw [lowlinks_eq_iff hindex hlow] at hne
      exact hfollows.leave h (Nat.lt_of_le_of_ne hfollows.low_le hne)

/-! ## the whole search -/

theorem Sound.start : Sound p g []
    (.start (p.funcIds.filter fun f => !(p.func f).isDeclaration)) where
  defined_iff {f} := by
    rw [ComponentSearch.start, getElem?_foldl_insert_const, ← Program.mem_defined_iff]
    split
    · next hf => simp [hf]
    · next hf => simp [hf]
  onStack_iff {f} := by
    rw [ComponentSearch.start, getElem?_foldl_insert_const]
    split <;> simp
  finished_iff {f} := by
    rw [ComponentSearch.start, getElem?_foldl_insert_const]
    split <;> simp [Components.of?]
  numbered _ hf := absurd hf List.not_mem_nil
  lt_index _ hf := absurd hf List.not_mem_nil
  descending := List.Pairwise.nil
  path_subset _ hf := absurd hf List.not_mem_nil
  leads _ hf := absurd hf List.not_mem_nil
  leads_back _ hf := absurd hf List.not_mem_nil
  followed _ hf := absurd hf List.not_mem_nil
  found := .empty

/-- Between the searches from functions nothing is on the stack. -/
theorem Sound.stack_eq_nil (h : Sound p g [] s) : s.stack = [] := by
  refine List.eq_nil_iff_forall_not_mem.2 fun b hb => ?_
  obtain ⟨a, ha, -⟩ := h.leads_back b hb
  exact absurd ha List.not_mem_nil

theorem Sound.visit (hg : Components.Defined p g) {depth : Nat} (h : Sound p g [] s)
    (hdepth : unvisited (p.funcIds.filter fun f => !(p.func f).isDeclaration) s ≤ depth) :
    Sound p g [] (s.visit g depth v) ∧ ¬(s.visit g depth v).Unvisited v ∧
      ∀ f, ¬s.Unvisited f → ¬(s.visit g depth v).Unvisited f := by
  rw [ComponentSearch.visit]
  split
  · next hv =>
    have hconnected := h.connect hg hv (fun a ha => absurd ha List.not_mem_nil) hdepth
    exact ⟨hconnected.sound, hconnected.visited_self, hconnected.visited⟩
  · next hv => exact ⟨h, hv, fun f hf => hf⟩

/-- **The search from all functions** lists the classes, and every defined function has its
component. -/
theorem ofGraph_lists (hg : Components.Defined p g) : (Components.ofGraph p g).Lists p g ∧
    ∀ f, (p.func f).isDeclaration = false → ∃ k, (Components.ofGraph p g).of? f = some k := by
  have hfold (fs : List FuncId) (s : ComponentSearch) (h : Sound p g [] s) (depth : Nat)
      (hdepth : unvisited (p.funcIds.filter fun f => !(p.func f).isDeclaration) s ≤ depth) :
      Sound p g [] (fs.foldl (ComponentSearch.visit g depth) s) ∧
        ∀ f, f ∈ fs ∨ ¬s.Unvisited f →
          ¬(fs.foldl (ComponentSearch.visit g depth) s).Unvisited f := by
    induction fs generalizing s with
    | nil => exact ⟨h, fun f hf => hf.resolve_left List.not_mem_nil⟩
    | cons v fs ih =>
      obtain ⟨hstep, hself, hkept⟩ := h.visit (v := v) hg hdepth
      obtain ⟨hend, hall⟩ := ih _ hstep ((unvisited_mono hkept).trans hdepth)
      refine ⟨hend, fun f hf => hall f ?_⟩
      rcases hf with hf | hf
      · rcases List.mem_cons.1 hf with rfl | hf
        · exact .inr hself
        · exact .inl hf
      · exact .inr (hkept f hf)
  obtain ⟨hend, hall⟩ := hfold _ _ .start _ List.countP_le_length
  refine ⟨hend.found, fun f hf => ?_⟩
  have hvisited := hall f (.inl (Program.mem_defined_iff.2 hf))
  refine (hend.mem_stack_or_exists_of? hf hvisited).resolve_left fun hmem => ?_
  rw [hend.stack_eq_nil] at hmem
  exact absurd hmem List.not_mem_nil

end ComponentSearch

end DataRace
