import DataRace.Proofs.Alias.CallPath
import Mathlib.Data.Fintype.List
import Mathlib.Data.Set.Finite.List

/-!
# DataRace.Proofs.Alias.Contexts

The contexts in reach of some others.

A walk pushes the labels of the edges that lead into callees, unless they are on
the stack, and pops others.  From contexts that repeat no site it can so come to
contexts only that repeat no site, with sites of the graph or of the contexts it
started from (`Context.Within`).  There are finitely many of those
(`Context.Within.finite`).

The contexts that queries are started from repeat no site either: a call path
takes no site twice (`AliasScope.nodup_of_contextPairs`).
-/

namespace DataRace

/-- There are finitely many lists without repetition over a finite set. -/
theorem finite_nodup_lists {α : Type} {U : Set α} (hU : U.Finite) :
    {l : List α | l.Nodup ∧ ∀ a ∈ l, a ∈ U}.Finite := by
  classical
  have := hU.fintype
  refine (Set.finite_range fun l : {l : List U // l.Nodup} => l.1.map Subtype.val).subset ?_
  rintro l ⟨hnodup, hl⟩
  have hmap : (l.attachWith (· ∈ U) hl).map Subtype.val = l := List.attachWith_map_subtype_val hl
  exact ⟨⟨l.attachWith (· ∈ U) hl, .of_map Subtype.val (hmap.symm ▸ hnodup)⟩, hmap⟩

/-! ## sites in the graph -/

/-- The call or spawn site that labels an edge. -/
def EdgeKind.site? : EdgeKind → Option InstId
  | .call site | .ret site | .fork site | .join site => some site
  | _ => none

namespace AssignGraph

variable {g : AssignGraph} {e : Edge} {n : NodeId} {site : InstId}

/-- A call or spawn site labels an edge of the graph. -/
def Labels (g : AssignGraph) (site : InstId) : Prop :=
  ∃ n, ∃ e ∈ g.inEdges n ++ g.outEdges n, e.kind.site? = some site

theorem Labels.of_inEdges (he : e ∈ g.inEdges n) (hsite : e.kind.site? = some site) :
    g.Labels site :=
  ⟨n, e, List.mem_append_left _ he, hsite⟩

theorem Labels.of_outEdges (he : e ∈ g.outEdges n) (hsite : e.kind.site? = some site) :
    g.Labels site :=
  ⟨n, e, List.mem_append_right _ he, hsite⟩

theorem finite_labels (g : AssignGraph) : {site | g.Labels site}.Finite := by
  have hmem {edges : Array (List Edge)} {n : NodeId} {e : Edge} (he : e ∈ edges.getD n []) :
      e ∈ edges.toList.flatten := by
    rw [Array.getD_eq_getD_getElem?] at he
    cases hn : edges[n]? with
    | none =>
      rw [hn, Option.getD_none] at he
      exact absurd he List.not_mem_nil
    | some es =>
      rw [hn, Option.getD_some] at he
      exact List.mem_flatten.2 ⟨es, Array.mem_toList_iff.2 (Array.mem_of_getElem? hn), he⟩
  refine (List.finite_toSet ((g.incoming.toList ++ g.outgoing.toList).flatten.filterMap
    (·.kind.site?))).subset ?_
  rintro site ⟨n, e, he, hsite⟩
  refine List.mem_filterMap.2 ⟨e, ?_, hsite⟩
  rw [List.flatten_append, List.mem_append]
  exact (List.mem_append.1 he).imp hmem hmem

end AssignGraph

/-! ## contexts in reach -/

/-- A context in reach of some others: it repeats no site, each of its sites labels an edge or
occurs in one of the others, and its root, if it has one, is the root of one of them. -/
structure Context.Within (g : AssignGraph) (S : Set Context) (c : Context) : Prop where
  nodup : c.sites.Nodup
  sites : ∀ site ∈ c.sites, g.Labels site ∨ ∃ d ∈ S, site ∈ d.sites
  root : ∀ p, c.root = some p → ∃ d ∈ S, d.root = some p

namespace Context.Within

variable {g : AssignGraph} {S : Set Context} {c d : Context} {site : InstId}

theorem of_mem (hc : c ∈ S) (hnodup : c.sites.Nodup) : c.Within g S :=
  ⟨hnodup, fun _ hsite => .inr ⟨c, hc, hsite⟩, fun _ hp => ⟨c, hc, hp⟩⟩

theorem global : Context.global.Within g S where
  nodup := .nil
  sites _ hsite := absurd hsite List.not_mem_nil
  root _ hp := absurd hp (Option.some_ne_none _).symm

theorem push (hc : c.Within g S) (hsite : g.Labels site) (hnew : c.onStack site = false) :
    (c.push site).Within g S where
  nodup := by
    refine List.nodup_append.2 ⟨hc.nodup, List.nodup_singleton site, ?_⟩
    rintro s hs _ ht rfl
    rw [List.mem_singleton] at ht
    rw [onStack, ← ht, List.contains_iff_mem.2 hs] at hnew
    cases hnew
  sites s hs := by
    rcases List.mem_append.1 hs with hs | hs
    · exact hc.sites s hs
    · exact .inl (List.mem_singleton.1 hs ▸ hsite)
  root := hc.root

/-- What is left of a context after a return. -/
theorem pop {roots : Roots} (hc : c.Within g S) (hd : c.pop roots site = some d) :
    d.Within g S := by
  -- a return takes off the innermost site or the root, or nothing
  have hless : d.sites.Sublist c.sites ∧ ∀ p, d.root = some p → c.root = some p := by
    unfold Context.pop at hd
    split at hd
    · split at hd
      · cases hd
        exact ⟨List.dropLast_sublist _, fun _ => id⟩
      · cases hd
    · split at hd
      · cases hd
        exact ⟨.refl _, fun _ => id⟩
      · split at hd
        · cases hd
          exact ⟨.refl _, fun _ hp => absurd hp (Option.some_ne_none _).symm⟩
        · split at hd
          · cases hd
            exact ⟨.refl _, fun _ => id⟩
          · cases hd
  exact ⟨hc.nodup.sublist hless.1, fun s hs => hc.sites s (hless.1.subset hs),
    fun p hp => hc.root p (hless.2 p hp)⟩

/-- Finitely many contexts are in reach of finitely many. -/
theorem finite (hS : S.Finite) : {c : Context | c.Within g S}.Finite := by
  have hsites : {site | g.Labels site ∨ ∃ d ∈ S, site ∈ d.sites}.Finite := by
    refine (g.finite_labels.union (hS.biUnion fun d _ => List.finite_toSet d.sites)).subset ?_
    rintro site (hsite | ⟨d, hd, hsite⟩)
    · exact .inl hsite
    · exact .inr (Set.mem_biUnion hd hsite)
  refine (((hS.image Context.root).insert none).image2 Context.mk
    (finite_nodup_lists hsites)).subset ?_
  rintro ⟨root, sites⟩ hc
  refine Set.mem_image2_of_mem ?_ ⟨hc.nodup, hc.sites⟩
  cases root with
  | none => exact Set.mem_insert _ _
  | some p => exact Set.mem_insert_of_mem _ (hc.root p rfl)

end Context.Within

/-! ## contexts to start from -/

namespace AliasScope

variable {x : AliasScope} {i j : InstId} {q r : Point}

theorem nodup_addPath {limit : Nat} {found found' : List CallPath} {path : CallPath}
    (hpath : path.sites.Nodup) (hfound : ∀ path ∈ found, path.sites.Nodup)
    (h : addPath limit found path = some found') : ∀ path ∈ found', path.sites.Nodup := by
  unfold addPath at h
  split at h
  · cases h
  · obtain rfl := Option.some.inj h
    exact List.forall_mem_append.2 ⟨hfound, List.forall_mem_singleton.2 hpath⟩

/-- A site is put in front of a path only if it is not on it. -/
theorem nodup_of_entrances {path : List InstId} {site : InstId} (hnodup : path.Nodup)
    (hsite : site ∈ x.entrances i path) : (site :: path).Nodup :=
  List.nodup_cons.2 ⟨(mem_entrances_iff.1 hsite).2, hnodup⟩

theorem nodup_of_pathsFrom {limit depth : Nat} {main : FuncId} {below : List InstId}
    {split : Option InstId} {found found' : List CallPath} (hnodup : (i :: below).Nodup)
    (hfound : ∀ path ∈ found, path.sites.Nodup)
    (h : x.pathsFrom limit main q depth below found (i, split) = some found') :
    ∀ path ∈ found', path.sites.Nodup := by
  induction depth generalizing below i split found found' with
  | zero => exact Option.some.inj h ▸ hfound
  | succ depth ih =>
    simp only [pathsFrom] at h
    split at h
    · exact Option.some.inj h ▸ hfound
    · split at h
      · exact nodup_addPath (hnodup.sublist (List.dropLast_sublist _)) hfound h
      · refine invariant_of_foldlM (I := fun found => ∀ path ∈ found, path.sites.Nodup)
          (fun e he found found' hfound h => ?_) hfound h
        obtain ⟨site, hsite, hnext⟩ := List.mem_filterMap.1 (List.mem_reverse.1 he)
        obtain ⟨split', -, rfl⟩ := Option.map_eq_some_iff.1 hnext
        exact ih (nodup_of_entrances hnodup hsite) hfound h

theorem nodup_of_loopPathsFrom {limit depth : Nat} {loop : InstId} {below : List InstId}
    {found found' : List CallPath} (hnodup : (i :: below).Nodup)
    (hfound : ∀ path ∈ found, path.sites.Nodup)
    (h : x.loopPathsFrom limit loop depth below found i = some found') :
    ∀ path ∈ found', path.sites.Nodup := by
  induction depth generalizing below i found found' with
  | zero => exact Option.some.inj h ▸ hfound
  | succ depth ih =>
    simp only [loopPathsFrom, List.partition_eq_filter_filter] at h
    obtain ⟨found₁, hhere, hfurther⟩ := Option.bind_eq_some_iff.1 h
    have hfound₁ := invariant_of_foldlM (I := fun found => ∀ path ∈ found, path.sites.Nodup)
      (fun site hsite found found' hfound h => ?_) hfound hhere
    · refine invariant_of_foldlM (I := fun found => ∀ path ∈ found, path.sites.Nodup)
        (fun site hsite found found' hfound h => ?_) hfound₁ hfurther
      exact ih (nodup_of_entrances hnodup (List.mem_filter.1 (List.mem_reverse.1 hsite)).1) hfound h
    · obtain ⟨hsite, hloop⟩ := List.mem_filter.1 hsite
      have hpath := nodup_of_entrances hnodup hsite
      rw [of_decide_eq_true hloop] at hpath
      exact nodup_addPath (hpath.sublist ((List.dropLast_sublist _).cons_cons loop)) hfound h

theorem nodup_of_pathsTo {paths : List CallPath} (h : x.pathsTo i q = .ok paths) :
    ∀ path ∈ paths, path.sites.Nodup := by
  have hnone : ∀ path ∈ ([] : List CallPath), path.sites.Nodup :=
    fun _ hpath => absurd hpath List.not_mem_nil
  unfold pathsTo at h
  dsimp only at h
  split at h
  · split at h
    · next hfound =>
      obtain rfl := Except.ok.inj h
      exact nodup_of_loopPathsFrom (List.nodup_singleton i) hnone hfound
    · cases h
  · split at h
    · cases h
    · split at h
      · next hfound =>
        obtain rfl := Except.ok.inj h
        exact nodup_of_pathsFrom (List.nodup_singleton i) hnone hfound
      · cases h

/-- The call strings under which two instructions run in parallel repeat no site. -/
theorem nodup_of_contextPairs {pairs : List (Context × Context)} {c d : Context}
    (h : x.contextPairs i q j r = .ok pairs) (hcd : (c, d) ∈ pairs) :
    c.sites.Nodup ∧ d.sites.Nodup := by
  unfold contextPairs at h
  obtain ⟨as, has, h⟩ := exists_of_bind_eq_ok h
  obtain ⟨bs, hbs, h⟩ := exists_of_bind_eq_ok h
  split at h
  · cases h
  · obtain rfl := Except.ok.inj h
    obtain ⟨⟨a, b⟩, hab, heq⟩ := List.mem_map.1 hcd
    obtain ⟨rfl, rfl⟩ := Prod.mk.inj heq
    obtain ⟨a', ha, hab⟩ := List.mem_flatMap.1 hab
    obtain ⟨b', hb, hab⟩ := List.mem_map.1 hab
    obtain ⟨rfl, rfl⟩ := Prod.mk.inj hab
    exact ⟨nodup_of_pathsTo has _ ha, nodup_of_pathsTo hbs _ (List.mem_filter.1 hb).1⟩

end AliasScope

end DataRace
