import DataRace.Alias.CallPath
import DataRace.Proofs.Parallel.Closure
import DataRace.Proofs.Parallel.Index

/-!
# DataRace.Proofs.Alias.CallPath

Which chains of calls are listed beside an instruction of `main`.

The search for call paths climbs from an instruction over its callers and stops
at `main`.  It misses no chain without repetition, because such a chain is no
longer than there are instructions (`AliasScope.mem_pathsFrom`).  A chain on the
branch of a spawn is then dropped unless it starts where the path on the trunk
splits off.  That is one place, the first one where the spawn takes effect on
the way to the instruction; of threads that are started by way of the others
nothing is listed (`AliasScope.mem_contextPairs_iff`).
-/

namespace DataRace

open Std Relation

/-! ## the way to an instruction -/

namespace Program

/-- Control may come from one instruction to another inside their function. -/
def LeadsTo (p : Program) (a i : InstId) : Prop :=
  a ∈ p.instsBefore i ∨ TransGen (fun b d => d ∈ (p.block b).succs) (p.blockOf a) (p.blockOf i)

theorem funcOf_eq_of_leadsTo {p : Program} (hp : p.Finished) (hplaced : p.Placed) {a i : InstId}
    (ha : a < p.insts.size) (hi : i < p.insts.size) (h : p.LeadsTo a i) :
    p.funcOf a = p.funcOf i := by
  have hpath {b d : BlockId} (h : TransGen (fun b d => d ∈ (p.block b).succs) b d) :
      (p.block b).func = (p.block d).func := by
    induction h with
    | single hstep => exact (hp.succ_spec hstep).2.2.symm
    | tail _ hstep ih => exact ih.trans (hp.succ_spec hstep).2.2.symm
  have hfunc : (p.block (p.blockOf a)).func = (p.block (p.blockOf i)).func := by
    rcases h with h | h
    · obtain ⟨k, hk⟩ := List.mem_iff_getElem?.1 (List.mem_of_mem_take h)
      rw [(hp.wellFormed.position_iff.1 hk).2.1]
    · exact hpath h
  rw [← hplaced a ha, hfunc, hplaced i hi]

end Program

namespace Subject

/-- A call or start of a thread in live code enters the function of an instruction. -/
def Enters (s : Subject) (site i : InstId) : Prop :=
  ∃ e ∈ s.calls.edges, e.site = site ∧ s.calls.isLive e.caller = true ∧
    e.callee = s.program.funcOf i

theorem Prepared.isLive_main {p : Program} {c : Config} {s : Subject} (h : s.Prepared p c)
    {main : FuncId} (hmain : p.main? = some main) (hdef : (p.func main).isDeclaration = false) :
    s.calls.isLive main = true := by
  rw [h.calls]
  simp only [CallGraph.isLive, CallGraph.ofProgram, CallGraph.liveFunctions, hmain]
  rw [TreeSet.contains_iff_mem, IdSet.mem_filter, hdef]
  exact ⟨mem_reachable_iff.2 ⟨main, List.mem_singleton_self main, Program.lt_of_defined hdef,
    .refl⟩, rfl⟩

end Subject

namespace AliasScope

variable {x : AliasScope} {p : Program} {c : Config} {i j a spawn site : Nat}

theorem comesFrom_iff (hp : x.subject.program.Finished) (hi : i < x.subject.program.insts.size) :
    x.comesFrom i a = true ↔ x.subject.program.LeadsTo a i := by
  have hpreds {a b : Nat} :
      a ∈ (x.subject.program.block b).preds ↔
        a < x.subject.program.blocks.size ∧ b ∈ (x.subject.program.block a).succs :=
    hp.mem_preds_iff
  have hlt := hp.wellFormed.blockOf_lt hi
  rw [comesFrom, Bool.or_eq_true, List.contains_iff_mem, TreeSet.contains_iff_mem]
  refine or_congr_right ⟨fun h => ?_, fun h => ?_⟩
  · obtain ⟨r, hr, hr_lt, hpath⟩ := mem_reachable_iff.1 h
    clear h
    have hback {b : Nat} (hpath : ReflTransGen (Search.Edge x.subject.program.blocks.size
        fun b => (x.subject.program.block b).preds) r b) : b < x.subject.program.blocks.size ∧
        TransGen (fun b d => d ∈ (x.subject.program.block b).succs) b
        (x.subject.program.blockOf i) := by
      induction hpath with
      | refl => exact ⟨hr_lt, .single (hpreds.1 hr).2⟩
      | tail _ hedge ih => exact ⟨hedge.2, .head (hpreds.1 hedge.1).2 ih.2⟩
    exact (hback hpath).2
  · generalize x.subject.program.blockOf a = b at h ⊢
    induction h using TransGen.head_induction_on with
    | single hstep =>
      have hb := (hp.succ_spec hstep).1
      exact mem_reachable_iff.2 ⟨_, hpreds.2 ⟨hb, hstep⟩, hb, .refl⟩
    | head hstep _ ih =>
      obtain ⟨r, hr, hr_lt, hpath⟩ := mem_reachable_iff.1 ih
      have hb := (hp.succ_spec hstep).1
      exact mem_reachable_iff.2 ⟨r, hr, hr_lt,
        hpath.tail ⟨hpreds.2 ⟨hb, hstep⟩, hb⟩⟩

/-- The trunk splits off at the least site with an effect on the way. -/
theorem splitSite?_iff (hp : x.subject.program.Finished) (hi : i < x.subject.program.insts.size)
    {sites : IdSet}
    (hsites : x.par.affectedSites x.subject (x.subject.program.funcOf i) spawn = some sites) :
    x.splitSite? i spawn = some a ↔ a ∈ sites ∧ x.subject.program.LeadsTo a i ∧
      ∀ b ∈ sites, x.subject.program.LeadsTo b i → a ≤ b := by
  have heq : x.splitSite? i spawn = sites.toList.find? (x.comesFrom i) := by
    rw [splitSite?, hsites]
    rfl
  rw [heq, IdSet.find?_toList_iff]
  simp only [comesFrom_iff hp hi]

theorem exists_splitSite? (hp : x.subject.program.Finished) (hi : i < x.subject.program.insts.size)
    {sites : IdSet}
    (hsites : x.par.affectedSites x.subject (x.subject.program.funcOf i) spawn = some sites)
    (ha : a ∈ sites) (hway : x.subject.program.LeadsTo a i) :
    ∃ b, x.splitSite? i spawn = some b := by
  classical
  have hex : ∃ b, b ∈ sites ∧ x.subject.program.LeadsTo b i := ⟨a, ha, hway⟩
  exact ⟨Nat.find hex,
    (splitSite?_iff hp hi hsites).2 ⟨(Nat.find_spec hex).1, (Nat.find_spec hex).2,
    fun b hb hl => Nat.find_min' hex ⟨hb, hl⟩⟩⟩

theorem mem_entrances_iff {path : List InstId} :
    site ∈ x.entrances i path ↔ x.subject.Enters site i ∧ site ∉ path := by
  simp only [entrances, CallGraph.edgesTo, List.mem_map, List.mem_filter, Bool.and_eq_true,
    Bool.not_eq_true', decide_eq_true_eq, ← Bool.not_eq_true, List.contains_iff_mem, Subject.Enters]
  constructor
  · rintro ⟨e, ⟨⟨he, hcallee⟩, hlive, hpath⟩, rfl⟩
    exact ⟨⟨e, he, rfl, hlive, hcallee⟩, hpath⟩
  · rintro ⟨⟨e, he, rfl, hlive, hcallee⟩, hpath⟩
    exact ⟨e, ⟨⟨he, hcallee⟩, hlive, hpath⟩, rfl⟩

/-! ## climbing to `main` -/

/-- A path to `main` continues the path from an instruction down. -/
inductive Climbs (x : AliasScope) (main : FuncId) (q : Point) :
    List InstId → InstId → Option InstId → CallPath → Prop
  | here {below : List InstId} {i : InstId} {split : Option InstId}
      (live : x.subject.calls.isLive (x.subject.program.funcOf i) = true)
      (there : x.subject.program.funcOf i = main) :
      Climbs x main q below i split { sites := (i :: below).dropLast, split }
  | up {below : List InstId} {i : InstId} {split : Option InstId} {site : InstId}
      {split' : Option InstId} {path : CallPath}
      (live : x.subject.calls.isLive (x.subject.program.funcOf i) = true)
      (elsewhere : x.subject.program.funcOf i ≠ main) (entrance : site ∈ x.entrances i (i :: below))
      (goesOn : x.continueAt q split site = some split')
      (rest : Climbs x main q (i :: below) site split' path) : Climbs x main q below i split path

variable {main : FuncId} {q : Point}

/-- The search adds exactly the paths that climb to `main`. -/
theorem mem_pathsFrom (h : x.subject.Prepared p c) {limit depth : Nat} {below : List InstId}
    {split : Option InstId} {found found' : List CallPath} (hnodup : (i :: below).Nodup)
    (hlt : ∀ k ∈ i :: below, k < p.insts.size) (hdepth : depth + below.length = p.insts.size + 1)
    (hsome : x.pathsFrom limit main q depth below found (i, split) = some found')
    (path : CallPath) :
    path ∈ found' ↔ path ∈ found ∨ Climbs x main q below i split path := by
  induction depth generalizing below i split found found' path with
  | zero =>
    -- A path without repetition is no longer than there are instructions.
    have hsub : i :: below ⊆ List.range p.insts.size := fun k hk => List.mem_range.2 (hlt k hk)
    have hle := (List.subperm_of_subset hnodup hsub).length_le
    rw [List.length_cons, List.length_range] at hle
    omega
  | succ depth ih =>
    rw [pathsFrom] at hsome
    dsimp only at hsome
    split at hsome
    · next hdead =>
      obtain rfl := Option.some.inj hsome
      refine ⟨.inl, fun h => h.elim id fun hclimbs => ?_⟩
      cases hclimbs <;> simp_all
    · next hlive =>
      rw [Bool.not_eq_true', Bool.not_eq_false] at hlive
      split at hsome
      · next hmain =>
        unfold addPath at hsome
        split at hsome
        · cases hsome
        · obtain rfl := Option.some.inj hsome
          rw [List.mem_append, List.mem_singleton]
          refine or_congr_right ⟨fun heq => heq ▸ .here hlive hmain, fun hclimbs => ?_⟩
          cases hclimbs with
          | here => rfl
          | up _ helse => exact absurd hmain helse
      · next hmain =>
        rw [mem_foldlM_iff (R := fun e path => Climbs x main q (i :: below) e.1 e.2 path) ?_ hsome]
        · refine or_congr_right ⟨?_, fun hclimbs => ?_⟩
          · rintro ⟨e, he, hclimbs⟩
            obtain ⟨site, hsite, hnext⟩ := List.mem_filterMap.1 (List.mem_reverse.1 he)
            obtain ⟨split', hsplit, rfl⟩ := Option.map_eq_some_iff.1 hnext
            exact .up hlive hmain hsite hsplit hclimbs
          · cases hclimbs with
            | here _ hthere => exact absurd hthere hmain
            | @up _ _ _ site split' _ _ _ hsite hsplit hrest =>
              refine ⟨(site, split'),
                List.mem_reverse.2 (List.mem_filterMap.2 ⟨site, hsite, ?_⟩), hrest⟩
              rw [hsplit, Option.map_some]
        · intro e he found found' hsome path
          obtain ⟨site, hsite, hnext⟩ := List.mem_filterMap.1 (List.mem_reverse.1 he)
          obtain ⟨split', -, rfl⟩ := Option.map_eq_some_iff.1 hnext
          obtain ⟨⟨edge, hedge, rfl, -⟩, hnot⟩ := mem_entrances_iff.1 hsite
          refine ih (List.nodup_cons.2 ⟨hnot, hnodup⟩) ?_ ?_ hsome path
          · intro k hk
            rcases List.mem_cons.1 hk with rfl | hk
            · exact (h.edge_spec hedge).1
            · exact hlt k hk
          · rw [List.length_cons]
            omega

/-- On the branch a path remembers that it met the spawn. -/
theorem isSome_of_continueAt {split split' : Option InstId} (hq : q.side = .branch)
    (h : x.continueAt q split site = some split') (hmet : split.isSome ∨ site = q.spawn) :
    split'.isSome := by
  cases split with
  | some s =>
    rw [continueAt, Option.some.injEq] at h
    rw [← h]
    rfl
  | none =>
    have hsite := hmet.resolve_left (by simp)
    simp only [continueAt, hq, hsite, if_true, Option.some.injEq] at h
    rw [← h]
    rfl

/-- What a path that climbs to `main` is like: it repeats nothing and meets `main` at its top
only. -/
theorem Climbs.exists_above {below : List InstId} {i : InstId} {split : Option InstId}
    {path : CallPath}
    (h : Climbs x main q below i split path) (hnodup : (i :: below).Nodup) : ∃ above : List InstId,
    path.sites = (above ++ i :: below).dropLast ∧ (above ++ i :: below).Nodup ∧
      (∀ k ∈ (above ++ [i]).tail, x.subject.program.funcOf k ≠ main) ∧
      (q.side = .branch → split.isSome ∨ q.spawn ∈ above → path.split.isSome) := by
  induction h with
  | here =>
    exact ⟨[], rfl, hnodup, by simp, fun _ h => h.elim id fun h => absurd h List.not_mem_nil⟩
  | @up below i split site split' path _ helse hsite hnext _ ih =>
    obtain ⟨-, hnot⟩ := mem_entrances_iff.1 hsite
    obtain ⟨above, hsites, hall, hmain, hsplit⟩ := ih (List.nodup_cons.2 ⟨hnot, hnodup⟩)
    refine ⟨above ++ [site], by simpa using hsites, by simpa using hall, ?_, fun hq hspawn => ?_⟩
    · intro k hk
      rw [List.tail_append_of_ne_nil (by simp), List.mem_append, List.mem_singleton] at hk
      rcases hk with hk | rfl
      · exact hmain k hk
      · exact helse
    · refine hsplit hq ?_
      rw [List.mem_append, List.mem_singleton, ← or_assoc] at hspawn
      rcases hspawn with (hspawn | hspawn) | rfl
      · exact .inl (isSome_of_continueAt hq hnext (.inl hspawn))
      · exact .inr hspawn
      · exact .inl (isSome_of_continueAt hq hnext (.inr rfl))

/-- A chain of calls and starts of threads down to an instruction, without repetition, that leads
through a spawn and stays in the code of its threads below. -/
structure BranchChain (x : AliasScope) (spawn i : InstId) (chain : List InstId) : Prop where
  nodup : chain.Nodup
  linked : (chain ++ [i]).IsChain x.subject.Enters
  through : spawn ∈ chain
  inside : ∀ {above site below}, chain = above ++ site :: below → spawn ∈ above →
    (x.par.codeOf spawn).branch.covers x.subject.program site = true

/-- A chain on the branch of a spawn beside an instruction of `main` on the trunk.  It starts at a
site where the spawn takes effect and that is on the way to the instruction. -/
structure ChainBeside (x : AliasScope) (main : FuncId) (spawn i j : InstId) (sites : IdSet)
    (top : InstId) (rest : List InstId) : Prop where
  start : x.subject.program.main? = some main
  left : i < x.subject.program.insts.size
  right : j < x.subject.program.insts.size
  inMain : x.subject.program.funcOf i = main
  trunk : Point.trunk spawn ∈ x.par.pointsOf x.subject.program i
  branch : Point.branch spawn ∈ x.par.pointsOf x.subject.program j
  affected : x.par.affectedSites x.subject main spawn = some sites
  site : top ∈ sites
  way : x.subject.program.LeadsTo top i
  chain : x.BranchChain spawn j (top :: rest)

/-- Every chain on the branch of a spawn is climbed, if it does not come back to `main`. -/
theorem BranchChain.climbs (h : x.subject.Prepared p c) (hp : p.WellFormed) (hplaced : p.Placed)
    (hmain : x.subject.calls.isLive main = true) {top : InstId} {rest : List InstId}
    (hchain : x.BranchChain spawn i (top :: rest)) (htop : p.funcOf top = main)
    (hnot : i ∉ top :: rest) (honly : ∀ k ∈ rest ++ [i], p.funcOf k ≠ main)
    {above below : List InstId} (heq : top :: rest ++ [i] = above ++ j :: below) :
    Climbs x main (.branch spawn) below j (if spawn ∈ j :: below then some spawn else none)
      { sites := top :: rest, split := some spawn } := by
  obtain rfl := h.program
  have hnodup : (top :: rest ++ [i]).Nodup := by
    rw [List.nodup_append]
    refine ⟨hchain.nodup, List.nodup_singleton i, fun a ha b hb hab => hnot ?_⟩
    rwa [← List.mem_singleton.1 hb, ← hab]
  induction above using List.reverseRecOn generalizing j below with
  | nil =>
    obtain ⟨rfl, hbelow⟩ : top = j ∧ rest ++ [i] = below := List.cons.inj heq
    have hsites : top :: rest = (top :: below).dropLast := by
      rw [← hbelow, ← List.cons_append, List.dropLast_concat]
    have hspawn : spawn ∈ top :: below := by
      rw [← hbelow, ← List.cons_append]
      exact List.mem_append_left _ hchain.through
    rw [if_pos hspawn, hsites]
    exact .here (htop ▸ hmain) htop
  | append_singleton above site ih =>
    rw [List.append_assoc, List.singleton_append] at heq
    have hrest := ih heq
    have hlinked := hchain.linked
    rw [heq] at hnodup hlinked
    obtain ⟨henters, -⟩ := List.isChain_cons_cons.1 hlinked.right_of_append
    have hbefore := (List.nodup_cons.1 (List.nodup_append.1 hnodup).2.1).1
    have helse : x.subject.program.funcOf j ≠ main := by
      refine honly j ?_
      cases above with
      | nil =>
        obtain ⟨-, htail⟩ : top = site ∧ rest ++ [i] = j :: below := List.cons.inj heq
        rw [htail]
        exact List.mem_cons_self
      | cons _ above =>
        obtain ⟨-, htail⟩ := List.cons.inj heq
        change rest ++ [i] = above ++ site :: j :: below at htail
        rw [htail]
        exact List.mem_append_right _ (List.mem_cons_of_mem _ List.mem_cons_self)
    -- Without the instruction at its end the list is the chain.
    have hsites : top :: rest = above ++ site :: (j :: below).dropLast := by
      have hdrop := congrArg List.dropLast heq
      rwa [List.dropLast_concat, List.dropLast_append_of_ne_nil (by simp),
        List.dropLast_cons_of_ne_nil (by simp)] at hdrop
    have hnext :
        x.continueAt (.branch spawn) (if spawn ∈ j :: below then some spawn else none) site =
          some (if spawn ∈ site :: j :: below then some spawn else none) := by
      by_cases hbelow : spawn ∈ j :: below
      · rw [if_pos hbelow, if_pos (List.mem_cons_of_mem site hbelow)]
        rfl
      · by_cases hsite : site = spawn
        · subst hsite
          rw [if_neg hbelow, if_pos List.mem_cons_self]
          simp [continueAt]
        · have habove : spawn ∈ above := by
            have hthrough := hchain.through
            rw [hsites, List.mem_append, List.mem_cons] at hthrough
            rcases hthrough with hin | hin | hin
            · exact hin
            · exact absurd hin.symm hsite
            · exact absurd (List.dropLast_subset _ hin) hbelow
          rw [if_neg hbelow, if_neg fun hin => (List.mem_cons.1 hin).elim (hsite ·.symm) hbelow]
          simp [continueAt, hsite, hchain.inside hsites habove]
    obtain ⟨e, he, hat, hlive, hcallee⟩ := henters
    have hlive' := h.isLive_callee hp hplaced he hlive
    rw [hcallee] at hlive'
    exact .up hlive' helse (mem_entrances_iff.2 ⟨⟨e, he, hat, hlive, hcallee⟩, hbefore⟩) hnext hrest

/-! ## the listed pairs -/

/-- The search for the paths of a point succeeded if the paths are listed. -/
theorem pathsFrom_of_pathsTo {found : List CallPath} {split : Option InstId}
    (hmain : x.subject.program.main? = some main) (hloop : x.par.isParallelLoop q.spawn = false)
    (hsplit : q.side = .trunk ∧ split = x.splitSite? i q.spawn ∨
      q.side = .branch ∧ split = if i = q.spawn then some i else none)
    (h : x.pathsTo i q = .ok found) :
    x.pathsFrom x.subject.config.maxPathLength main q (x.subject.program.insts.size + 1) [] []
      (i, split) = some found := by
  unfold pathsTo at h
  simp only [hloop, hmain, Bool.false_eq_true, if_false] at h
  rcases hsplit with ⟨hside, rfl⟩ | ⟨hside, rfl⟩
  all_goals
    simp only [hside] at h
    split at h
    · next hfound => rw [hfound, Except.ok.inj h]
    · cases h

theorem mem_contextPairs {pairs : List (Context × Context)} {q r : Point}
    (h : x.contextPairs i q j r = .ok pairs) :
    ∃ as bs, x.pathsTo i q = .ok as ∧ x.pathsTo j r = .ok bs ∧
      ∀ sites sites', (({ sites }, { sites := sites' }) : Context × Context) ∈ pairs ↔
        ∃ a ∈ as, ∃ b ∈ bs, x.isFeasible q a b = true ∧ a.sites = sites ∧ b.sites = sites' := by
  unfold contextPairs at h
  obtain ⟨as, has, h⟩ := exists_of_bind_eq_ok h
  obtain ⟨bs, hbs, h⟩ := exists_of_bind_eq_ok h
  refine ⟨as, bs, has, hbs, fun sites sites' => ?_⟩
  split at h
  · cases h
  · obtain rfl := Except.ok.inj h
    simp only [List.mem_map, List.mem_flatMap, List.mem_filter]
    constructor
    · rintro ⟨-, ⟨a, ha, b, ⟨hb, hfeasible⟩, rfl⟩, heq⟩
      obtain ⟨hfst, hsnd⟩ := Prod.mk.inj heq
      exact ⟨a, ha, b, hb, hfeasible, congrArg Context.sites hfst, congrArg Context.sites hsnd⟩
    · rintro ⟨a, ha, b, hb, hfeasible, rfl, rfl⟩
      exact ⟨(a, b), ⟨a, ha, b, ⟨hb, hfeasible⟩, rfl⟩, rfl⟩

/-- To an instruction of `main` there is one path. -/
theorem mem_pathsTo_main (h : x.subject.Prepared p c) (hp : p.WellFormed) (hplaced : p.Placed)
    (hmain : p.main? = some main) (hi : i < p.insts.size) (hthere : p.funcOf i = main)
    (hloop : x.par.isParallelLoop spawn = false) {found : List CallPath}
    (hfound : x.pathsTo i (.trunk spawn) = .ok found) {path : CallPath} :
    path ∈ found ↔ path = { sites := [], split := x.splitSite? i spawn } := by
  obtain rfl := h.program
  have hlive := h.isLive_main hmain (hthere ▸ hp.defined_funcOf hi)
  have hsearch := pathsFrom_of_pathsTo hmain hloop (.inl ⟨rfl, rfl⟩) hfound
  rw [mem_pathsFrom h (List.nodup_singleton i) (by simpa using hi) rfl hsearch,
    or_iff_right List.not_mem_nil]
  constructor
  · rintro (⟨-, -⟩ | ⟨-, helse⟩)
    · rfl
    · exact absurd hthere helse
  · rintro rfl
    exact .here (hthere ▸ hlive) hthere

/-- On the branch there is a path along a chain unless the chain comes back to `main`, and the path
has met the spawn. -/
theorem BranchChain.mem_pathsTo_iff (h : x.subject.Prepared p c) (hp : p.WellFormed)
    (hplaced : p.Placed) (hmain : p.main? = some main)
    (hlive : x.subject.calls.isLive main = true) (hj : j < p.insts.size)
    (hloop : x.par.isParallelLoop spawn = false) {rest : List InstId}
    (hchain : x.BranchChain spawn j (a :: rest)) (htop : p.funcOf a = main) {found : List CallPath}
    (hfound : x.pathsTo j (.branch spawn) = .ok found) :
    (∀ b ∈ found, b.sites = a :: rest → b.split.isSome) ∧
      ((∃ b ∈ found, b.sites = a :: rest) ↔
        j ∉ a :: rest ∧ ∀ k ∈ rest ++ [j], p.funcOf k ≠ main) := by
  obtain rfl := h.program
  have hsearch (path : CallPath) : path ∈ found ↔ path ∈ [] ∨
      Climbs x main (.branch spawn) [] j (if j = spawn then some j else none) path :=
    mem_pathsFrom h (List.nodup_singleton j) (by simpa using hj) rfl
      (pathsFrom_of_pathsTo hmain hloop (.inr ⟨rfl, rfl⟩) hfound) path
  have habove {b : CallPath} (hb : b ∈ found) (hrest : b.sites = a :: rest) : b.split.isSome ∧
      (a :: rest ++ [j]).Nodup ∧ ∀ k ∈ rest ++ [j], x.subject.program.funcOf k ≠ main := by
    have hclimbs := ((hsearch b).1 hb).resolve_left List.not_mem_nil
    obtain ⟨above, habove, hnodup, honly, hmet⟩ := hclimbs.exists_above (List.nodup_singleton j)
    rw [List.dropLast_concat, hrest] at habove
    subst habove
    exact ⟨hmet rfl (.inr hchain.through), hnodup, honly⟩
  refine ⟨fun b hb hrest => (habove hb hrest).1, ?_, ?_⟩
  · rintro ⟨b, hb, hrest⟩
    obtain ⟨-, hnodup, honly⟩ := habove hb hrest
    exact ⟨fun hj => (List.nodup_append.1 hnodup).2.2 j hj j (List.mem_singleton_self j) rfl, honly⟩
  · rintro ⟨hnot, honly⟩
    have hclimbs := hchain.climbs h hp hplaced hlive htop hnot honly rfl
    have hne : ¬j = spawn := fun hj => hnot (hj ▸ hchain.through)
    rw [if_neg fun hspawn => hne (List.mem_singleton.1 hspawn).symm] at hclimbs
    refine ⟨{ sites := a :: rest, split := some spawn }, (hsearch _).2 (.inr ?_), rfl⟩
    rwa [if_neg hne]

theorem isFeasible_trunk_iff {b : CallPath} {path : List InstId} {s : InstId}
    (hb : b.split.isSome) :
    x.isFeasible (.trunk spawn) { sites := path, split := some s } b = true ↔
      x.passes b.sites s = true := by
  obtain ⟨t, ht⟩ := Option.isSome_iff_exists.1 hb
  simp [isFeasible, ht]

theorem passes_cons_iff {rest : List InstId} {s : InstId}
    (hsame : x.subject.program.funcOf a = x.subject.program.funcOf s) :
    x.passes (a :: rest) s = true ↔ a = s := by
  simp [passes, hsame]

section

variable {par : Parallelism} (hp : p.Finished) (hplaced : p.Placed)
  (hs : Subject.prepare p c = .ok x.subject)
  (hpar : Parallelism.analyze x.subject (.collect x.subject) = .ok par)
  (hx : x.par = par ∨ x.par = par.refine x.subject)
  (hspawn : spawn ∈ (Operations.collect x.subject).spawns)

include hpar hx hspawn

/-- A spawn is no parallel loop. -/
theorem isParallelLoop_spawn : x.par.isParallelLoop spawn = false := by
  have hkind := (List.mem_filter.1 hspawn).2
  rw [Program.isSpawn, beq_iff_eq] at hkind
  have hloops : x.par.loops = par.loops := by rcases hx with hx | hx <;> rw [hx]; rfl
  rw [Parallelism.isParallelLoop, hloops, ← Bool.not_eq_true, TreeMap.contains_iff_mem,
    TreeMap.mem_iff_isSome_getElem?, Option.isSome_iff_exists]
  rintro ⟨l, hl⟩
  have hfor := (List.mem_filter.1 ((Parallelism.code_spec hpar).2 hl)).2
  rw [Program.isParallelFor, hkind] at hfor
  cases hfor

include hp hplaced hs

theorem lt_of_mem_affectedSites {f : FuncId} {sites : IdSet} {b : InstId}
    (hsites : x.par.affectedSites x.subject f spawn = some sites) (hb : b ∈ sites) :
    b < p.insts.size := by
  have heffects : x.par.effects = par.effects := by rcases hx with hx | hx <;> rw [hx]; rfl
  obtain ⟨k, -, hk⟩ := Option.bind_eq_some_iff.1 hsites
  rw [heffects] at hk
  have h := Subject.prepared hs
  obtain rfl := h.program
  have heffects := Parallelism.effectsHold_analyze hp hplaced hs hpar hspawn k spawn sites hk
  exact ((heffects.2 b hb).site_spec h).1

/-- **What is listed beside an instruction of `main`.**  A chain on the branch of a spawn starts at
some site where the spawn takes effect, on the way to the instruction.  It is listed beside it if
that is the least such site, and nothing below it is in `main` again; all other chains are
missing. -/
theorem mem_contextPairs_iff {main : FuncId} {sites : IdSet} {rest : List InstId}
    {pairs : List (Context × Context)} (hbeside : x.ChainBeside main spawn i j sites a rest)
    (hpairs : x.contextPairs i (.trunk spawn) j (.branch spawn) = .ok pairs) :
    (({}, { sites := a :: rest }) : Context × Context) ∈ pairs ↔
      (∀ b ∈ sites, p.LeadsTo b i → a ≤ b) ∧ j ∉ a :: rest ∧
        ∀ k ∈ rest ++ [j], p.funcOf k ≠ main := by
  have h := Subject.prepared hs
  have hlt {b : InstId} (hb : b ∈ sites) :=
    lt_of_mem_affectedSites hp hplaced hs hpar hx hspawn hbeside.affected hb
  obtain rfl := h.program
  obtain ⟨hmain, hi, hj, hthere, -, -, hsites, ha, hway, hchain⟩ := hbeside
  have htop := (Program.funcOf_eq_of_leadsTo hp hplaced (hlt ha) hi hway).trans hthere
  have hloop := isParallelLoop_spawn hpar hx hspawn
  have hlive := h.isLive_main hmain (hthere ▸ hp.wellFormed.defined_funcOf hi)
  -- The trunk splits off at the least site on the way.
  rw [← hthere] at hsites
  obtain ⟨least, hleast⟩ := exists_splitSite? hp hi hsites ha hway
  obtain ⟨hmem, hleads, hmin⟩ := (splitSite?_iff hp hi hsites).1 hleast
  have hfirst : (∀ b ∈ sites, x.subject.program.LeadsTo b i → a ≤ b) ↔ a = least :=
    ⟨fun hall => Nat.le_antisymm (hall least hmem hleads) (hmin a ha hway), fun heq => heq ▸ hmin⟩
  have hsame : x.subject.program.funcOf a = x.subject.program.funcOf least := by
    rw [htop, Program.funcOf_eq_of_leadsTo hp hplaced (hlt hmem) hi hleads, hthere]
  obtain ⟨as, bs, has, hbs, hlisted⟩ := mem_contextPairs hpairs
  have htrunk {path : CallPath} : path ∈ as ↔ path = { sites := [], split := some least } :=
    hleast ▸ mem_pathsTo_main h hp.wellFormed hplaced hmain hi hthere hloop has
  obtain ⟨hmet, hpaths⟩ :=
    hchain.mem_pathsTo_iff h hp.wellFormed hplaced hmain hlive hj hloop htop hbs
  simp only [hlisted, htrunk, exists_eq_left, true_and]
  rw [hfirst, ← hpaths]
  constructor
  · rintro ⟨b, hb, hfeasible, hrest⟩
    rw [isFeasible_trunk_iff (hmet b hb hrest), hrest, passes_cons_iff hsame] at hfeasible
    exact ⟨hfeasible, b, hb, hrest⟩
  · rintro ⟨heq, b, hb, hrest⟩
    refine ⟨b, hb, ?_, hrest⟩
    rwa [isFeasible_trunk_iff (hmet b hb hrest), hrest, passes_cons_iff hsame]

end

/-! ## a spawn that takes effect twice in `main` -/

/-- `main` may call a function; after that it starts a thread, and the thread and `main` write to a
global. -/
def startAfterCall (callee : FuncId) : List Command :=
  [.global "t" 0, .global "g" 0, .global "flag" 0, .declare "worker" 1, .declare "main" 0,
    .declare "idle" 0, .declare "thread_create" 3, .const 0,
    .body 0, .append 0 0 (.store 1 11), .append 0 0 (.ret none),
    .body 1, .block 1, .block 1, .append 1 1 (.load 2), .append 1 1 (.compare .eq 12 11),
    .append 1 1 (.branch 13 3 2),
    .append 1 2 (.call (.direct callee) []), .append 1 2 (.jump 3),
    .append 1 3 (.call (.direct 3) [0, 3, 11]), .append 1 3 (.store 1 11), .append 1 3 (.ret none)]

/-- The thread's write and the start of the thread lie beside the write in `main`. -/
theorem startAfterCall_spec {n : FuncId} (hn : n = 1 ∨ n = 2)
    {q : IdSet → List (Context × Context) → Bool}
    (heval : (Subject.prepare (Builder.ofScript (startAfterCall n))
      { contextMode := .standard }).toOption.any
      (fun s => (Parallelism.analyze s (.collect s)).toOption.any fun par =>
        (Operations.collect s).spawns.contains 7 && (par.matched.getD 7 {}).blockers.isEmpty &&
        s.calls.edges.any (fun e => e.site == 7 && e.caller == 1 && e.callee == 0) &&
        s.calls.isLive 1 &&
        (({ subject := s, par := par.refine s } : AliasScope).par.affectedSites s 1 7).any
          fun sites => sites.contains 7 &&
            (({ subject := s, par := par.refine s } : AliasScope).contextPairs
              8 (.trunk 7) 0 (.branch 7)).toOption.any (q sites)) = true) :
    ∃ (x : AliasScope) (par : Parallelism) (sites : IdSet) (pairs : List (Context × Context)),
      (Builder.ofScript (startAfterCall n)).Finished ∧
      (Builder.ofScript (startAfterCall n)).Placed ∧
      Subject.prepare (Builder.ofScript (startAfterCall n)) { contextMode := .standard } =
        .ok x.subject ∧
      Parallelism.analyze x.subject (.collect x.subject) = .ok par ∧ x.par = par.refine x.subject ∧
      7 ∈ (Operations.collect x.subject).spawns ∧ x.ChainBeside 1 7 8 0 sites 7 [] ∧
      x.contextPairs 8 (.trunk 7) 0 (.branch 7) = .ok pairs ∧ q sites pairs = true := by
  have hfin : (Builder.ofScript (startAfterCall n)).Finished := by
    rcases hn with rfl | rfl <;> exact Builder.finished_ofScript (by decide +kernel)
  have hplaced : (Builder.ofScript (startAfterCall n)).Placed := by
    rcases hn with rfl | rfl <;> unfold Program.Placed <;> decide +kernel
  obtain ⟨s, hs, heval⟩ := exists_of_any_toOption heval
  obtain ⟨par, hpar, heval⟩ := exists_of_any_toOption heval
  rw [Bool.and_eq_true, Option.any_eq_true] at heval
  obtain ⟨heval, sites, hsites, hpairs⟩ := heval
  rw [Bool.and_eq_true] at hpairs
  obtain ⟨hseven, hpairs⟩ := hpairs
  obtain ⟨pairs, hpairs, hq⟩ := exists_of_any_toOption hpairs
  simp only [Bool.and_eq_true, List.contains_iff_mem, List.any_eq_true, beq_iff_eq] at heval
  obtain ⟨⟨⟨hspawn, hnone⟩, e, he, ⟨hsite, hcaller⟩, hcallee⟩, hlive⟩ := heval
  have hprog := (Subject.prepared hs).program
  have hshape : (Builder.ofScript (startAfterCall n)).main? = some 1 ∧
      8 < (Builder.ofScript (startAfterCall n)).insts.size ∧
      (Builder.ofScript (startAfterCall n)).funcOf 8 = 1 ∧
      (Builder.ofScript (startAfterCall n)).funcOf 0 = 0 ∧
      (Builder.ofScript (startAfterCall n)).Follows 7 8 ∧
      (Builder.ofScript (startAfterCall n)).isInteresting 8 = true ∧
      7 ∈ (Builder.ofScript (startAfterCall n)).instsBefore 8 := by
    rcases hn with rfl | rfl <;> decide +kernel
  obtain ⟨hmain, hsize, hinMain, hinWorker, hfollows, hint, hbefore⟩ := hshape
  obtain ⟨k, hk, htop, htakes⟩ := Parallelism.takesEffect_spawn hfin hplaced hs hpar hspawn
  have htrunk := Parallelism.covers_of_takesEffect hfin hplaced hs hpar hspawn hnone hk htop htakes
    (.single hfollows) hint
  have hreach : s.calls.Reaches e.callee ((Builder.ofScript (startAfterCall n)).funcOf 0) := by
    rw [hcallee, hinWorker]
    exact .refl
  have hbranch :=
    (Parallelism.covers_branch_iff hfin hplaced hs hpar hspawn).2 ⟨e, he, hsite, hreach⟩
  have hindexed := (Parallelism.indexed_of_analyze hprog hpar).refine s
  have hsite' : 7 ∈ sites := TreeSet.contains_iff_mem.1 hseven
  have henters : s.Enters 7 0 := by
    refine ⟨e, he, hsite, hcaller ▸ hlive, ?_⟩
    rw [hcallee, hprog, hinWorker]
  have hchain : BranchChain { subject := s, par := par.refine s } 7 0 [7] := by
    refine ⟨List.nodup_singleton 7, by simpa using henters, List.mem_singleton_self 7, ?_⟩
    intro above site below heq habove
    rcases List.append_eq_singleton_iff.1 heq.symm with ⟨rfl, -⟩ | ⟨-, hnil⟩
    · exact absurd habove List.not_mem_nil
    · cases hnil
  refine ⟨{ subject := s, par := par.refine s }, par, sites, pairs, hfin, hplaced, hs, hpar,
    rfl, hspawn, ?_, hpairs, hq⟩
  refine ⟨hprog ▸ hmain, hprog ▸ hsize, ?_, ?_, ?_, ?_, hsites, hsite', ?_, hchain⟩
  all_goals rw [hprog]
  · exact Nat.lt_of_le_of_lt (Nat.zero_le 8) hsize
  · exact hinMain
  · exact Parallelism.mem_pointsOf_trunk.2 (.inl htrunk)
  · exact (Parallelism.mem_pointsOf_branch hindexed).2 (.inl hbranch)
  · exact .inl hbefore

/-- Chains that start where the spawn takes effect again are not listed, though they lead to code
that runs beside the instruction. -/
theorem not_forall_mem_contextPairs :
    ¬∀ (p : Program) (c : Config) (x : AliasScope) (par : Parallelism)
    (main : FuncId) (spawn i j top : InstId) (sites : IdSet) (rest : List InstId)
    (pairs : List (Context × Context)), p.Finished → p.Placed → c.contextMode = .standard →
    Subject.prepare p c = .ok x.subject →
    Parallelism.analyze x.subject (.collect x.subject) = .ok par →
    x.par = par.refine x.subject → spawn ∈ (Operations.collect x.subject).spawns →
    x.ChainBeside main spawn i j sites top rest →
    x.contextPairs i (.trunk spawn) j (.branch spawn) = .ok pairs →
    (({}, { sites := top :: rest }) : Context × Context) ∈ pairs := by
  intro hall
  obtain ⟨x, par, sites, pairs, hfin, hplaced, hs, hpar, hx, hspawn, hbeside, hpairs, hempty⟩ :=
    startAfterCall_spec (.inl rfl) (q := fun _ pairs => pairs.isEmpty) (by decide +kernel)
  have hmem := hall _ _ x par 1 7 8 0 7 sites [] pairs hfin hplaced rfl hs hpar hx hspawn
    hbeside hpairs
  rw [List.isEmpty_iff.1 hempty] at hmem
  cases hmem

/-- If the spawn takes effect once, the chain is listed. -/
theorem mem_contextPairs_startedOnce :
    ∃ (x : AliasScope) (sites : IdSet) (pairs : List (Context × Context)),
    Subject.prepare (Builder.ofScript (startAfterCall 2)) { contextMode := .standard } =
      .ok x.subject ∧
    x.ChainBeside 1 7 8 0 sites 7 [] ∧ x.contextPairs 8 (.trunk 7) 0 (.branch 7) = .ok pairs ∧
    (({}, { sites := [7] }) : Context × Context) ∈ pairs := by
  obtain ⟨x, par, sites, pairs, hfin, hplaced, hs, hpar, hx, hspawn, hbeside, hpairs, hq⟩ :=
    startAfterCall_spec (.inr rfl) (q := fun sites _ => sites.toList == [7]) (by decide +kernel)
  refine ⟨x, sites, pairs, hs, hbeside, hpairs, ?_⟩
  rw [mem_contextPairs_iff hfin hplaced hs hpar (.inr hx) hspawn hbeside hpairs]
  refine ⟨fun b hb _ => ?_, by decide, by decide +kernel⟩
  rw [← TreeSet.mem_toList, eq_of_beq hq, List.mem_singleton] at hb
  exact Nat.le_of_eq hb.symm

end AliasScope

end DataRace
